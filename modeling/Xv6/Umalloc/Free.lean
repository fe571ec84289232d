import Xv6.Umalloc.Heap
import Xv6.Umalloc.Tiles

/-!
# `free` puts a block in its place

The heap represents a tiling: the ring through `base` has the free blocks, in order of their addresses.
Wherever `freep` points to, the loop of `free` ends at the last node before the block, and the block is
joined with the neighbours that it touches.
-/

namespace Xv6

open Function (update_eq_self update_of_ne update_self)

/-- The sizes are those of the blocks, and the ring has the free ones. -/
structure Heap.Represents (base : Nat) (h : Heap) (ts : List Tile) : Prop where
  size : ∀ t ∈ ts, h.size t.start = t.size
  ring : Closed h.ptr (base :: starts true ts)
  empty : h.size base = 0
  freep : h.freep ∈ base :: starts true ts

/-- A heap with its blocks, all above `base` -/
structure Heap.Sound (base : Nat) (h : Heap) (ts : List Tile) : Prop extends
    h.Represents base ts where
  tiled : Tiled (base + HEADER) h.brk ts
  brk : h.brk < 2 ^ 32

namespace Heap

variable {base : Nat} {h : Heap} {ts L R : List Tile} {t l r : Tile}

section

variable (h) (p q n : Nat)

@[simp]
theorem ptr_setPtr : (h.setPtr p q).ptr = Function.update h.ptr p q := by
  funext x
  by_cases hx : x = p
  · simp [ptr, setPtr, hx]
  · simp [ptr, setPtr, hx]

@[simp]
theorem size_setPtr : (h.setPtr p q).size = h.size := by
  funext x
  by_cases hx : x = p
  · simp [size, setPtr, hx]
  · simp [size, setPtr, hx]

@[simp]
theorem ptr_setSize : (h.setSize p n).ptr = h.ptr := by
  funext x
  by_cases hx : x = p
  · simp [ptr, setSize, hx]
  · simp [ptr, setSize, hx]

@[simp]
theorem size_setSize : (h.setSize p n).size = Function.update h.size p n := by
  funext x
  by_cases hx : x = p
  · simp [size, setSize, hx]
  · simp [size, setSize, hx]

end

theorem advance_eq {p n : Nat} (hlt : p + n * HEADER < 2 ^ 32) : advance p n = p + n * HEADER :=
  Nat.mod_eq_of_lt hlt

theorem Sound.advance_start (hs : h.Sound base ts) (ht : t ∈ ts) :
    advance t.start (h.size t.start) = t.stop := by
  rw [hs.size t ht]
  exact advance_eq ((hs.tiled.high t ht).trans_lt hs.brk)

theorem Sound.base_lt (hs : h.Sound base ts) (ht : t ∈ ts) : base < t.start := by
  have := hs.tiled.low t ht
  simp only [HEADER] at this
  omega

theorem Sound.sorted (hs : h.Sound base ts) : (base :: starts true ts).Pairwise (· < ·) := by
  rw [List.pairwise_cons]
  refine ⟨?_, hs.tiled.sorted⟩
  intro a ha
  obtain ⟨t, ht, -, rfl⟩ := mem_starts.mp ha
  exact hs.base_lt ht

theorem ring_eq (hlive : t.free = false) : base :: starts true (L ++ t :: R) = base :: starts true L ++ starts true R := by
  rw [starts_append, starts_cons_of_ne (by simp [hlive]), List.cons_append]

theorem Sound.lower (hs : h.Sound base (L ++ t :: R)) {a : Nat} (ha : a ∈ base :: starts true L) : a < t.start := by
  rcases List.mem_cons.mp ha with rfl | ha
  · exact hs.base_lt (by simp)
  · obtain ⟨l, hl, -, rfl⟩ := mem_starts.mp ha
    exact (hs.tiled.start_lt_stop (List.mem_append_left _ hl)).trans_le (hs.tiled.lt_left l hl)

theorem Sound.upper (hs : h.Sound base (L ++ t :: R)) {a : Nat} (ha : a ∈ starts true R) : t.start < a := by
  obtain ⟨r, hr, -, rfl⟩ := mem_starts.mp ha
  exact (hs.tiled.start_lt_stop (by simp)).trans_le (hs.tiled.lt_right r hr)

section

variable (hs : h.Sound base (L ++ t :: R)) (hlive : t.free = false)

include hs hlive

theorem Sound.fits_last {X : List Nat} {z : Nat} (hX : base :: starts true L = X ++ [z]) :
    h.fits t.start z := by
  have hring := hs.ring
  rw [ring_eq hlive, hX, ← List.append_cons] at hring
  have hnext := hring.head?_eq
  have hz : z < t.start := hs.lower (by rw [hX]; simp)
  rw [fits]
  cases hZ : starts true R with
  | nil =>
    -- the ring starts over behind the last node
    have hbase : base = h.ptr z := by
      rw [hZ, List.nil_append, ← hX] at hnext
      simpa using hnext
    have hle : base ≤ z := by
      have hmem : z ∈ base :: starts true L := by rw [hX]; simp
      rcases List.mem_cons.mp hmem with rfl | hmem
      · exact le_rfl
      · obtain ⟨l, hl, -, rfl⟩ := mem_starts.mp hmem
        exact (hs.base_lt (List.mem_append_left _ hl)).le
    simp [← hbase, hz, hle]
  | cons n Z =>
    rw [hZ] at hnext
    have hn : n = h.ptr z := by simpa using hnext
    have hlt : t.start < n := hs.upper (by rw [hZ]; simp)
    simp [← hn, hz, hlt]

theorem Sound.split_of_fits {y : Nat} (hy : y ∈ base :: starts true (L ++ t :: R))
    (hfits : h.fits t.start y) : ∃ X, base :: starts true L = X ++ [y] := by
  obtain ⟨X, Z, hsplit⟩ := List.append_of_mem hy
  have hsorted := hs.sorted
  have hring := hs.ring
  rw [hsplit] at hsorted hring
  have hnext := hring.head?_eq
  obtain ⟨-, hyZ, hXy⟩ := List.pairwise_append.mp hsorted
  obtain ⟨hyZ, hZ⟩ := List.pairwise_cons.mp hyZ
  have hhead : (X ++ [y]).head? = some base := by
    have := congrArg List.head? hsplit
    cases X <;> simpa using this.symm
  have hbase : base ≤ y := by
    rcases X with - | ⟨x, X⟩
    · obtain rfl : y = base := by simpa using hhead
      exact le_rfl
    · obtain rfl : x = base := by simpa using hhead
      exact (hXy x (by simp) y (by simp)).le
  simp only [fits, gt_iff_lt, ge_iff_le, Bool.or_eq_true, Bool.and_eq_true, decide_eq_true_eq] at hfits
  -- all of the ring up to `y` is below the block, and the rest above it
  have hlt : y < t.start ∧ ∀ z ∈ Z, t.start < z := by
    cases Z with
    | nil =>
      rw [List.nil_append, hhead] at hnext
      have hptr : base = h.ptr y := Option.some.inj hnext
      have hbt := hs.base_lt (t := t) (by simp)
      refine ⟨?_, by simp⟩
      omega
    | cons n Z =>
      have hn : n = h.ptr y := by simpa using hnext
      have hyn : y < n := hyZ n List.mem_cons_self
      have hbetween : y < t.start ∧ t.start < n := by omega
      refine ⟨hbetween.1, ?_⟩
      intro z hz
      rcases List.mem_cons.mp hz with rfl | hz
      · exact hbetween.2
      · exact hbetween.2.trans ((List.pairwise_cons.mp hZ).1 z hz)
  refine ⟨X, ?_⟩
  have hfilter := congrArg (List.filter fun a => decide (a < t.start)) hsplit
  rw [ring_eq hlive, List.filter_append, List.append_cons, List.filter_append] at hfilter
  rw [List.filter_eq_self.mpr, List.filter_eq_nil_iff.mpr, List.filter_eq_self.mpr,
    List.filter_eq_nil_iff.mpr, List.append_nil, List.append_nil] at hfilter
  · exact hfilter
  · intro z hz
    simpa using (hlt.2 z hz).le
  · intro x hx
    rcases List.mem_append.mp hx with hx | hx
    · simpa using (hXy x hx y (by simp)).trans hlt.1
    · obtain rfl : x = y := by simpa using hx
      simpa using hlt.1
  · intro z hz
    simpa using (hs.upper hz).le
  · intro x hx
    simpa using hs.lower hx

theorem Sound.search_eq {rounds : Nat} (hrounds : (starts true (L ++ t :: R)).length + 1 ≤ rounds) :
    ∃ X p, base :: starts true L = X ++ [p] ∧
      search h.ptr (h.fits t.start) rounds h.freep = some p := by
  obtain ⟨X, z, hX⟩ : ∃ X z, base :: starts true L = X ++ [z] := by
    rcases List.eq_nil_or_concat (base :: starts true L) with hnil | ⟨X, z, hX⟩
    · cases hnil
    · exact ⟨X, z, by rw [hX, List.concat_eq_append]⟩
  have hz : z ∈ base :: starts true (L ++ t :: R) := by
    rw [ring_eq hlive, hX]
    simp
  obtain ⟨y, hy, hfits, hsearch⟩ := search_closed hs.ring hs.freep
    ⟨z, hz, hs.fits_last hlive hX⟩ (by simpa using hrounds)
  obtain ⟨X', hX'⟩ := hs.split_of_fits hlive hy hfits
  exact ⟨X', y, hX', hsearch⟩

/-- After the first `if` of `free`: the block has `n` units, `q` comes behind it, and `R₁` are the blocks
above it. -/
structure Upper (base : Nat) (h : Heap) (L : List Tile) (t : Tile) (R : List Tile) (X : List Nat) (p : Nat)
    (n q : Nat) (R₁ : List Tile) : Prop where
  ptr : (h.joinUpper t.start p).ptr = Function.update h.ptr t.start q
  size : (h.joinUpper t.start p).size = Function.update h.size t.start n
  tiled : Tiled (base + HEADER) h.brk (L ++ ⟨t.start, n, false⟩ :: R₁)
  right : ∀ b ∈ R₁.head?, b.free → t.start + n * Tile.unit ≠ b.start
  ring : Closed (Function.update h.ptr p q) (X ++ p :: starts true R₁)
  le : t.size ≤ n
  covers : ∀ u, Covers (⟨t.start, n, false⟩ :: R₁) u ↔ Covers (t :: R) u
  suffix : R₁ <:+ R
  live : starts false R₁ = starts false R
  units : n + total R₁ = t.size + total R

section

variable {X : List Nat} {p : Nat} (hX : base :: starts true L = X ++ [p])

include hX

theorem Sound.closed : Closed h.ptr (X ++ p :: starts true R) := by
  have hring := hs.ring
  rwa [ring_eq hlive, hX, ← List.append_cons] at hring

theorem Sound.ring_nodup : (X ++ p :: starts true R).Nodup := by
  have hsorted := hs.sorted
  rw [ring_eq hlive, hX, ← List.append_cons] at hsorted
  exact hsorted.imp fun hab => hab.ne

theorem Sound.upper_link (hne : t.stop ≠ h.ptr p) (hright : ∀ b ∈ R.head?, b.free → t.stop ≠ b.start) :
    Upper base h L t R X p t.size (h.ptr p) R := by
  have hstop := hs.advance_start (t := t) (by simp)
  refine ⟨?_, ?_, hs.tiled.replace _ rfl rfl (by simp) (by simp), hright, ?_, le_rfl, ?_,
    List.suffix_refl R, rfl, rfl⟩
  · rw [joinUpper, hstop, if_neg hne, ptr_setPtr]
  · rw [joinUpper, hstop, if_neg hne, size_setPtr, ← hs.size t (by simp), update_eq_self]
  · rw [update_eq_self]
    exact hs.closed hlive hX
  · intro u
    rw [covers_cons, covers_cons]
    rfl

end

omit hs in
theorem Sound.upper_join {X : List Nat} {p : Nat} (hs : h.Sound base (L ++ t :: r :: R))
    (hX : base :: starts true L = X ++ [p]) (hfree : r.free = true) (hptr : h.ptr p = r.start)
    (htr : t.stop = r.start) : Upper base h L t (r :: R) X p (t.size + r.size) (h.ptr r.start) R := by
  have hsum : t.start + (t.size + r.size) * Tile.unit = r.stop := by
    simp only [Tile.stop, Tile.unit] at htr ⊢
    omega
  have hlt : t.size + r.size < 2 ^ 32 := by
    have := (hs.tiled.high r (by simp)).trans_lt hs.brk
    simp only [← hsum, Tile.unit] at this
    omega
  have hcond : advance t.start (h.size t.start) = h.ptr p := by
    rw [hs.advance_start (by simp), htr, hptr]
  refine ⟨?_, ?_, hs.tiled.joinUpper hlive htr, ?_, ?_, Nat.le_add_right .., ?_, List.suffix_cons .., ?_,
    ?_⟩
  · rw [joinUpper, if_pos hcond]
    simp [hptr]
  · rw [joinUpper, if_pos hcond]
    simp only [size_setPtr, size_setSize]
    rw [hs.size t (by simp), hptr, hs.size r (by simp), Nat.mod_eq_of_lt hlt]
  · intro b hb hfb
    rw [hsum]
    have hchain := (List.isChain_cons.mp hs.tiled.right.chain).2
    exact ((List.isChain_cons.mp hchain).1 b hb).2 hfree hfb
  · have hring := hs.closed hlive hX
    have hnodup := hs.ring_nodup hlive hX
    rw [starts_cons_of_eq hfree] at hring hnodup
    refine hring.remove (update_self ..) fun x hx => update_of_ne ?_ ..
    rintro rfl
    rw [List.nodup_append] at hnodup
    rcases List.mem_append.mp hx with hx | hx
    · exact hnodup.2.2 x hx x (by simp) rfl
    · exact (List.nodup_cons.mp hnodup.2.1).1 (by simp [hx])
  · intro u
    rw [covers_cons, covers_cons, covers_cons, Tiled.holds_join htr, or_assoc]
  · rw [starts_cons_of_ne (by simp [hfree])]
  · rw [total_cons, Nat.add_assoc]

theorem Sound.upper_spec {X : List Nat} {p : Nat} (hX : base :: starts true L = X ++ [p]) :
    ∃ n q R₁, Upper base h L t R X p n q R₁ := by
  have hnext := (hs.closed hlive hX).head?_eq
  cases hZ : starts true R with
  | nil =>
    have hbase : base = h.ptr p := by
      rw [hZ, List.nil_append, ← hX] at hnext
      simpa using hnext
    have hbt := hs.base_lt (t := t) (by simp)
    have htlt := hs.tiled.start_lt_stop (t := t) (by simp)
    refine ⟨_, _, R, hs.upper_link hlive hX (by omega) ?_⟩
    intro b hb hfb
    have hmem : b.start ∈ starts true R :=
      mem_starts.mpr ⟨b, List.mem_of_mem_head? hb, hfb, rfl⟩
    rw [hZ] at hmem
    cases hmem
  | cons z Z =>
    have hz : z = h.ptr p := by
      rw [hZ] at hnext
      simpa using hnext
    obtain ⟨r, hr, hfr, hrz⟩ : ∃ r ∈ R, r.free = true ∧ r.start = z :=
      mem_starts.mp (by rw [hZ]; simp)
    by_cases heq : t.stop = z
    · obtain ⟨R', rfl⟩ := hs.tiled.right.head_of_start hr (hrz.trans heq.symm)
      exact ⟨_, _, R', hs.upper_join hlive hX hfr (hz.symm.trans hrz.symm) (heq.trans hrz.symm)⟩
    · refine ⟨_, _, R, hs.upper_link hlive hX (by rw [← hz]; exact heq) ?_⟩
      intro b hb hfb hbt
      obtain ⟨R', rfl⟩ : ∃ R', R = b :: R' := by
        cases R with
        | nil => cases hb
        | cons x R' => exact ⟨R', by rw [show x = b by simpa using hb]⟩
      rw [starts_cons_of_eq hfb] at hZ
      exact heq (hbt.trans (List.cons.inj hZ).1)

end

/-- The block `t` of `L ++ t :: R` has become free, and the blocks are `ts'` now. -/
structure Frees (base : Nat) (h : Heap) (L : List Tile) (t : Tile) (R : List Tile) (h' : Heap)
    (ts' : List Tile) : Prop where
  sound : h'.Sound base ts'
  covers : ∀ u, Covers ts' u ↔ Covers (L ++ t :: R) u
  live : starts false ts' = starts false (L ++ R)
  big : ∃ f ∈ ts', f.free = true ∧ t.size ≤ f.size
  units : total ts' = total (L ++ t :: R)
  length : ts'.length ≤ (L ++ t :: R).length
  brk : h'.brk = h.brk
  obtained : h'.obtained = h.obtained

section

variable {X : List Nat} {p n q : Nat} {R₁ : List Tile} (hs : h.Sound base (L ++ t :: R))
  (hlive : t.free = false) (hX : base :: starts true L = X ++ [p])
  (hup : Upper base h L t R X p n q R₁)

theorem brk_joinUpper (bp p : Nat) : (h.joinUpper bp p).brk = h.brk := by
  rw [joinUpper]
  split <;> rfl

theorem obtained_joinUpper (bp p : Nat) : (h.joinUpper bp p).obtained = h.obtained := by
  rw [joinUpper]
  split <;> rfl

include hs hup

theorem Upper.size_of_mem {x : Tile} (hx : x ∈ L ++ R₁) :
    (h.joinUpper t.start p).size x.start = x.size := by
  have hmem : x ∈ L ∨ x ∈ R := (List.mem_append.mp hx).imp_right fun hx => hup.suffix.mem hx
  have hne : x.start ≠ t.start := by
    rcases hmem with hx | hx
    · have := hs.tiled.start_lt_stop (List.mem_append_left _ hx)
      have := hs.tiled.lt_left x hx
      omega
    · have := hs.tiled.start_lt_stop (t := t) (by simp)
      have := hs.tiled.lt_right x hx
      omega
  rw [hup.size, update_of_ne hne]
  refine hs.size x ?_
  rcases hmem with hx | hx <;> simp [hx]

include hlive hX

theorem Upper.ne_of_mem {x : Nat} (hx : x ∈ X ++ starts true R₁) : x ≠ p ∧ x ≠ t.start := by
  have hx' : x ∈ X ∨ x ∈ starts true R := by
    refine (List.mem_append.mp hx).imp_right fun hx => ?_
    obtain ⟨r, hr, hfr, rfl⟩ := mem_starts.mp hx
    exact mem_starts.mpr ⟨r, hup.suffix.mem hr, hfr, rfl⟩
  have hnodup := hs.ring_nodup hlive hX
  rw [List.nodup_append] at hnodup
  rcases hx' with hx | hx
  · refine ⟨fun heq => hnodup.2.2 x hx p (by simp) heq, ?_⟩
    exact (hs.lower (a := x) (by rw [hX]; simp [hx])).ne
  · refine ⟨?_, (hs.upper hx).ne'⟩
    rintro rfl
    exact (List.nodup_cons.mp hnodup.2.1).1 hx

theorem Upper.ptr_of_mem {x : Nat} (hx : x ∈ X ++ starts true R₁) (q' : Nat) :
    Function.update (h.joinUpper t.start p).ptr p q' x = Function.update h.ptr p q x := by
  obtain ⟨hp, ht⟩ := hup.ne_of_mem hs hlive hX hx
  rw [update_of_ne hp, update_of_ne hp, hup.ptr, update_of_ne ht]

omit hup hlive in
theorem Sound.pred_lt : p < t.start := hs.lower (by rw [hX]; simp)

theorem Upper.lower_link (hne : advance p (h.size p) ≠ t.start)
    (hleft : ∀ a ∈ L.getLast?, a.free → a.stop ≠ t.start) :
    Frees base h L t R { (h.joinUpper t.start p).joinLower t.start p with freep := p }
      (L ++ ⟨t.start, n, true⟩ :: R₁) := by
  have hpt := hs.pred_lt hX
  have hcond : advance p ((h.joinUpper t.start p).size p) ≠ t.start := by
    rwa [hup.size, update_of_ne hpt.ne]
  have hlower : (h.joinUpper t.start p).joinLower t.start p
      = (h.joinUpper t.start p).setPtr p t.start := by rw [joinLower, if_neg hcond]
  have hstarts : base :: starts true (L ++ ⟨t.start, n, true⟩ :: R₁)
      = X ++ p :: t.start :: starts true R₁ := by
    rw [starts_append, starts_cons_mk, ← List.cons_append, hX, ← List.append_cons]
  rw [hlower]
  refine ⟨⟨⟨?_, ?_, ?_, ?_⟩, ?_, ?_⟩, ?_, ?_, ⟨⟨t.start, n, true⟩, by simp, rfl, hup.le⟩, ?_, ?_,
    brk_joinUpper .., obtained_joinUpper ..⟩
  · intro x hx
    change ((h.joinUpper t.start p).setPtr p t.start).size x.start = x.size
    rw [size_setPtr]
    rcases List.mem_append.mp hx with hx | hx
    · exact hup.size_of_mem hs (List.mem_append_left _ hx)
    · rcases List.mem_cons.mp hx with rfl | hx
      · rw [hup.size, update_self]
      · exact hup.size_of_mem hs (List.mem_append_right _ hx)
  · change Closed ((h.joinUpper t.start p).setPtr p t.start).ptr _
    rw [hstarts, ptr_setPtr]
    refine hup.ring.insert (update_self ..) ?_ fun x hx => hup.ptr_of_mem hs hlive hX hx _
    rw [update_self, update_of_ne hpt.ne', hup.ptr, update_self]
  · change ((h.joinUpper t.start p).setPtr p t.start).size base = 0
    rw [size_setPtr, hup.size, update_of_ne (hs.base_lt (by simp)).ne]
    exact hs.empty
  · change p ∈ _
    rw [hstarts]
    simp
  · change Tiled _ (h.joinUpper t.start p).brk _
    rw [brk_joinUpper]
    exact hup.tiled.replace _ rfl rfl (fun a ha hfa _ => hleft a ha hfa) fun b hb _ hfb => hup.right b hb hfb
  · change (h.joinUpper t.start p).brk < _
    rw [brk_joinUpper]
    exact hs.brk
  · intro u
    rw [covers_append, covers_append, ← hup.covers u, covers_cons, covers_cons]
    rfl
  · rw [starts_append, starts_cons_of_ne (by simp), starts_append, hup.live]
  · have := hup.units
    simp only [total_append, total_cons]
    omega
  · have := hup.suffix.length_le
    simp only [List.length_append, List.length_cons]
    omega

theorem Upper.lower_join {L' : List Tile} (hL : L = L' ++ [l]) (hfree : l.free = true)
    (hp : p = l.start) (hstop : l.stop = t.start) :
    Frees base h L t R { (h.joinUpper t.start p).joinLower t.start p with freep := p }
      (L' ++ ⟨l.start, l.size + n, true⟩ :: R₁) := by
  subst hL hp
  have hpt := hs.pred_lt hX
  have hlmem : l ∈ L' ++ [l] ++ t :: R := by simp
  have hlsize := hup.size_of_mem hs (x := l) (by simp)
  have hcond : advance l.start ((h.joinUpper t.start l.start).size l.start) = t.start := by
    rw [hlsize, ← hs.size l hlmem, hs.advance_start hlmem, hstop]
  have hnsize : (h.joinUpper t.start l.start).size t.start = n := by
    rw [hup.size, update_self]
  have hlt : l.size + n < 2 ^ 32 := by
    have := (hup.tiled.high ⟨t.start, n, false⟩ (by simp)).trans_lt hs.brk
    simp only [Tile.stop, Tile.unit] at this hstop
    omega
  have hlower : (h.joinUpper t.start l.start).joinLower t.start l.start
      = ((h.joinUpper t.start l.start).setSize l.start (l.size + n)).setPtr l.start q := by
    rw [joinLower, if_pos hcond]
    simp only
    rw [ptr_setSize, hlsize, hnsize, Nat.mod_eq_of_lt hlt, hup.ptr, update_self]
  have hX' : base :: starts true L' = X := by
    rw [starts_append, starts_cons_of_eq hfree, ← List.cons_append] at hX
    exact (List.append_inj' hX rfl).1
  have hstarts : base :: starts true (L' ++ ⟨l.start, l.size + n, true⟩ :: R₁)
      = X ++ l.start :: starts true R₁ := by
    rw [starts_append, starts_cons_mk, ← List.cons_append, hX']
  have htiled : Tiled (base + HEADER) h.brk (L' ++ l :: ⟨t.start, n, false⟩ :: R₁) := by
    have := hup.tiled
    rwa [← List.append_cons] at this
  have hne : ∀ x ∈ L' ++ R₁, x.start ≠ l.start := by
    intro x hx
    rcases List.mem_append.mp hx with hx | hx
    · have := htiled.start_lt_stop (t := x) (by simp [hx])
      have := htiled.lt_left x hx
      omega
    · have := htiled.start_lt_stop (t := l) (by simp)
      have := htiled.lt_right x (by simp [hx])
      omega
  rw [hlower]
  refine ⟨⟨⟨?_, ?_, ?_, ?_⟩, ?_, ?_⟩, ?_, ?_, ⟨⟨l.start, l.size + n, true⟩, by simp, rfl,
      hup.le.trans (Nat.le_add_left ..)⟩, ?_, ?_, brk_joinUpper .., obtained_joinUpper ..⟩
  · intro x hx
    change (((h.joinUpper t.start l.start).setSize l.start (l.size + n)).setPtr l.start q).size x.start = _
    rw [size_setPtr, size_setSize]
    rcases List.mem_append.mp hx with hx | hx
    · rw [update_of_ne (hne x (by simp [hx]))]
      exact hup.size_of_mem hs (by simp [hx])
    · rcases List.mem_cons.mp hx with rfl | hx
      · rw [update_self]
      · rw [update_of_ne (hne x (by simp [hx]))]
        exact hup.size_of_mem hs (by simp [hx])
  · change Closed (((h.joinUpper t.start l.start).setSize l.start (l.size + n)).setPtr l.start q).ptr _
    rw [hstarts, ptr_setPtr, ptr_setSize]
    refine hup.ring.congr fun x hx => ?_
    by_cases heq : x = l.start
    · rw [heq, update_self, update_self]
    · refine hup.ptr_of_mem hs hlive hX ?_ q
      simpa [heq] using hx
  · change (((h.joinUpper t.start l.start).setSize l.start (l.size + n)).setPtr l.start q).size base = 0
    have hbl := hs.base_lt hlmem
    rw [size_setPtr, size_setSize, update_of_ne hbl.ne, hup.size,
      update_of_ne (hs.base_lt (by simp)).ne]
    exact hs.empty
  · change l.start ∈ _
    rw [hstarts]
    simp
  · change Tiled _ (h.joinUpper t.start l.start).brk _
    rw [brk_joinUpper]
    exact htiled.joinLower hfree hstop hup.right
  · change (h.joinUpper t.start l.start).brk < _
    rw [brk_joinUpper]
    exact hs.brk
  · intro u
    have hjoin : Tile.Holds ⟨l.start, l.size + n, true⟩ u ↔ l.Holds u ∨ Tile.Holds ⟨t.start, n, false⟩ u :=
      Tiled.holds_join (b := ⟨t.start, n, false⟩) hstop
    rw [covers_append, covers_append, covers_append, ← hup.covers u, covers_cons, covers_cons, covers_cons,
      hjoin, or_assoc, or_assoc]
    simp [Covers]
  · rw [starts_append, starts_cons_of_ne (by simp), starts_append, starts_append,
      starts_cons_of_ne (by simp [hfree]), hup.live]
    simp [starts]
  · have := hup.units
    simp only [total_append, total_cons]
    have hnil : total [] = 0 := rfl
    omega
  · have := hup.suffix.length_le
    simp only [List.length_append, List.length_cons]
    omega

end

/-- `free` of a block in use ends, and joins it with the free blocks that it touches. -/
theorem Sound.free_spec {rounds : Nat} (hs : h.Sound base (L ++ t :: R)) (hlive : t.free = false)
    (hrounds : (starts true (L ++ t :: R)).length + 1 ≤ rounds) :
    ∃ h' ts', h.free rounds (t.start + HEADER) = some h' ∧ Frees base h L t R h' ts' := by
  obtain ⟨X, p, hX, hsearch⟩ := hs.search_eq hlive hrounds
  obtain ⟨n, q, R₁, hup⟩ := hs.upper_spec hlive hX
  rw [free, Nat.add_sub_cancel, hsearch]
  by_cases htouch : ∃ l ∈ L, l.free = true ∧ l.start = p ∧ l.stop = t.start
  · obtain ⟨l, hl, hfree, hp, hstop⟩ := htouch
    obtain ⟨L', hL⟩ := hs.tiled.last_of_stop hl hstop
    exact ⟨_, _, rfl, hup.lower_join hs hlive hX hL hfree hp.symm hstop⟩
  · refine ⟨_, _, rfl, hup.lower_link hs hlive hX ?_ ?_⟩
    · intro heq
      have hp : p ∈ base :: starts true L := by rw [hX]; simp
      rcases List.mem_cons.mp hp with rfl | hp
      · have hbt := hs.base_lt (t := t) (by simp)
        have htop := (hs.tiled.high t (by simp)).trans_lt hs.brk
        have hlt := hs.tiled.start_lt_stop (t := t) (by simp)
        rw [hs.empty, advance_eq (by omega)] at heq
        omega
      · obtain ⟨l, hl, hfree, rfl⟩ := mem_starts.mp hp
        rw [hs.advance_start (List.mem_append_left _ hl)] at heq
        exact htouch ⟨l, hl, hfree, rfl, heq⟩
    · intro a ha hfa hstop
      have hal : a ∈ L := List.mem_of_getLast? ha
      obtain ⟨L', rfl⟩ := hs.tiled.last_of_stop hal hstop
      refine htouch ⟨a, hal, hfa, ?_, hstop⟩
      rw [starts_append, starts_cons_of_eq hfa, ← List.cons_append] at hX
      simpa [starts] using (List.append_inj' hX rfl).2

end Heap

end Xv6
