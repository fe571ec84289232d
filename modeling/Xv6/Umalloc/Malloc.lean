import Xv6.Umalloc.Free

/-!
# `malloc` finds a block

From any place of the ring the loop of `malloc` looks at each free block once.  It takes what it needs
from the first that is large enough, and otherwise asks for memory once.
-/

namespace Xv6

open Function (update_of_ne update_self)

/-- The blocks are exactly the memory that `sbrk` has given out. -/
structure Heap.Owns (base : Nat) (h : Heap) (ts : List Tile) : Prop extends h.Sound base ts where
  above : base + HEADER ≤ h.brk
  covers : ∀ u, Covers ts u ↔ ∃ r ∈ h.obtained, r.1 ≤ u ∧ u < r.1 + r.2
  units : total ts * HEADER = (h.obtained.map Prod.snd).sum

namespace Heap

variable {base : Nat} {h h' : Heap} {ts ts' L R : List Tile} {t : Tile} {n : Nat}

theorem Owns.free_spec {rounds : Nat} (hs : h.Owns base (L ++ t :: R)) (hlive : t.free = false)
    (hrounds : (L ++ t :: R).length + 1 ≤ rounds) :
    ∃ h' ts', h.free rounds (t.start + HEADER) = some h' ∧ h'.Owns base ts' ∧
      starts false ts' = starts false (L ++ R) ∧ (∃ f ∈ ts', f.free = true ∧ t.size ≤ f.size) ∧
      ts'.length ≤ (L ++ t :: R).length ∧ h'.obtained = h.obtained := by
  have hlen : (starts true (L ++ t :: R)).length + 1 ≤ rounds := by
    refine le_trans (Nat.succ_le_succ ?_) hrounds
    rw [starts, List.length_map]
    exact List.length_filter_le ..
  obtain ⟨h', ts', hfree, hf⟩ := hs.toSound.free_spec hlive hlen
  refine ⟨h', ts', hfree, ⟨hf.sound, ?_, ?_, ?_⟩, hf.live, hf.big, hf.length, hf.obtained⟩
  · rw [hf.brk]
    exact hs.above
  · intro u
    rw [hf.covers, hf.obtained]
    exact hs.covers u
  · rw [hf.units, hf.obtained]
    exact hs.units

/-- `h` with `n` units in use at `q` that were free -/
structure Takes (base : Nat) (h : Heap) (ts : List Tile) (n : Nat) (q : Nat) (h' : Heap)
    (ts' : List Tile) : Prop where
  owns : h'.Owns base ts'
  block : ⟨q, n, false⟩ ∈ ts'
  live : (starts false ts').Perm (q :: starts false ts)

theorem Sound.pred_split (hs : h.Sound base ts) {prevp p : Nat} (hprev : prevp ∈ base :: starts true ts)
    (hptr : h.ptr prevp = p) (hp : base < p) :
    ∃ X Z, base :: starts true ts = X ++ prevp :: p :: Z := by
  obtain ⟨X, Z, hsplit⟩ := List.append_of_mem hprev
  have hring := hs.ring
  rw [hsplit] at hring
  have hnext := hring.head?_eq
  rw [hptr] at hnext
  cases Z with
  | nil =>
    have hhead := congrArg List.head? hsplit
    rw [List.nil_append] at hnext
    rw [hnext] at hhead
    obtain rfl : base = p := by simpa using hhead
    exact absurd hp (lt_irrefl _)
  | cons z Z =>
    obtain rfl : z = p := by simpa using hnext
    exact ⟨X, Z, hsplit⟩

section

variable (hs : h.Owns base (L ++ t :: R)) (hfree : t.free = true) {prevp : Nat}
  (hprev : prevp ∈ base :: starts true (L ++ t :: R)) (hptr : h.ptr prevp = t.start)

include hs hfree hprev hptr

theorem Owns.take_all : Takes base h (L ++ t :: R) t.size t.start
    { h.setPtr prevp (h.ptr t.start) with freep := prevp } (L ++ { t with free := false } :: R) := by
  obtain ⟨X, Z, hsplit⟩ := hs.pred_split hprev hptr (hs.base_lt (by simp))
  have hnodup : (X ++ prevp :: t.start :: Z).Nodup := by
    have hsorted := hs.sorted
    rw [hsplit] at hsorted
    exact hsorted.imp fun hab => hab.ne
  -- the ring without the block
  have hstarts : base :: starts true (L ++ { t with free := false } :: R) = X ++ prevp :: Z := by
    have hne : t.start ∉ base :: starts true L := fun hmem => lt_irrefl _ (hs.lower hmem)
    have hne' : t.start ∉ X ++ [prevp] := by
      rw [List.append_cons] at hnodup
      exact fun hmem => (List.nodup_append.mp hnodup).2.2 _ hmem _ (by simp) rfl
    have herase : (base :: starts true (L ++ t :: R)).erase t.start
        = (X ++ prevp :: t.start :: Z).erase t.start := by rw [hsplit]
    rw [starts_append, starts_cons_of_eq hfree, ← List.cons_append, List.erase_append_right _ hne,
      List.erase_cons_head, List.append_cons, List.erase_append_right _ hne', List.erase_cons_head,
      ← List.append_cons] at herase
    rw [starts_append, starts_cons_of_ne (by simp), ← List.cons_append]
    exact herase
  have hring := hs.ring
  rw [hsplit] at hring
  refine ⟨⟨⟨⟨?_, ?_, ?_, ?_⟩, ?_, hs.brk⟩, hs.above, ?_, ?_⟩, by simp, ?_⟩
  · intro x hx
    change (h.setPtr prevp (h.ptr t.start)).size x.start = x.size
    rw [size_setPtr]
    rcases List.mem_append.mp hx with hx | hx
    · exact hs.size x (by simp [hx])
    · rcases List.mem_cons.mp hx with rfl | hx
      · exact hs.size t (by simp)
      · exact hs.size x (by simp [hx])
  · change Closed (h.setPtr prevp (h.ptr t.start)).ptr _
    rw [hstarts, ptr_setPtr]
    refine hring.remove (update_self ..) fun x hx => update_of_ne ?_ ..
    rintro rfl
    rcases List.mem_append.mp hx with hx | hx
    · exact (List.nodup_append.mp hnodup).2.2 x hx x (by simp) rfl
    · exact (List.nodup_cons.mp (List.nodup_append.mp hnodup).2.1).1 (by simp [hx])
  · change (h.setPtr prevp (h.ptr t.start)).size base = 0
    rw [size_setPtr]
    exact hs.empty
  · change prevp ∈ _
    rw [hstarts]
    simp
  · exact hs.tiled.replace _ rfl rfl (by simp) (by simp)
  · intro u
    refine Iff.trans ?_ (hs.covers u)
    rw [covers_append, covers_append, covers_cons, covers_cons]
    rfl
  · have := hs.units
    simp only [total_append, total_cons] at this ⊢
    exact this
  · rw [starts_append, starts_append, starts_cons_mk, starts_cons_of_ne (by simp [hfree])]
    exact List.perm_middle

omit hptr in
theorem Owns.take_part (hn : 0 < n) (hlt : n < t.size) :
    Takes base h (L ++ t :: R) n (t.start + (t.size - n) * HEADER)
      { (h.setSize t.start (t.size - n)).setSize (t.start + (t.size - n) * HEADER) n with freep := prevp }
      (L ++ ⟨t.start, t.size - n, true⟩ :: ⟨t.start + (t.size - n) * HEADER, n, false⟩ :: R) := by
  have hqlt : t.start < t.start + (t.size - n) * HEADER := by simp only [HEADER]; omega
  have hqstop : t.start + (t.size - n) * HEADER < t.stop := by
    simp only [Tile.stop, Tile.unit, HEADER]
    omega
  have hstarts : starts true
      (L ++ ⟨t.start, t.size - n, true⟩ :: ⟨t.start + (t.size - n) * HEADER, n, false⟩ :: R)
      = starts true (L ++ t :: R) := by
    rw [starts_append, starts_append, starts_cons_mk, starts_cons_of_ne (by simp), starts_cons_of_eq hfree]
  -- the other blocks are not touched
  have hother : ∀ x ∈ L ++ R,
      ((h.setSize t.start (t.size - n)).setSize (t.start + (t.size - n) * HEADER) n).size x.start
        = x.size := by
    intro x hx
    have hmem : x ∈ L ++ t :: R := by
      rcases List.mem_append.mp hx with hx | hx <;> simp [hx]
    have hne : x.start ≠ t.start ∧ x.start ≠ t.start + (t.size - n) * HEADER := by
      rcases List.mem_append.mp hx with hx | hx
      · have := hs.tiled.start_lt_stop hmem
        have := hs.tiled.lt_left x hx
        omega
      · have := hs.tiled.lt_right x hx
        omega
    rw [size_setSize, size_setSize, update_of_ne hne.2, update_of_ne hne.1]
    exact hs.size x hmem
  have htiled := hs.tiled.split hn hlt
  rw [hfree] at htiled
  refine ⟨⟨⟨⟨?_, ?_, ?_, ?_⟩, htiled, hs.brk⟩, hs.above, ?_, ?_⟩, by simp, ?_⟩
  · intro x hx
    rcases List.mem_append.mp hx with hx | hx
    · exact hother x (by simp [hx])
    · rcases List.mem_cons.mp hx with rfl | hx
      · change ((h.setSize t.start (t.size - n)).setSize _ n).size t.start = t.size - n
        rw [size_setSize, size_setSize, update_of_ne hqlt.ne, update_self]
      · rcases List.mem_cons.mp hx with rfl | hx
        · change ((h.setSize t.start (t.size - n)).setSize _ n).size _ = n
          rw [size_setSize, update_self]
        · exact hother x (by simp [hx])
  · change Closed ((h.setSize t.start (t.size - n)).setSize _ n).ptr _
    rw [ptr_setSize, ptr_setSize, hstarts]
    exact hs.ring
  · have hbt := hs.base_lt (t := t) (by simp)
    change ((h.setSize t.start (t.size - n)).setSize _ n).size base = 0
    rw [size_setSize, size_setSize, update_of_ne (hbt.trans hqlt).ne,
      update_of_ne hbt.ne]
    exact hs.empty
  · change prevp ∈ _
    rw [hstarts]
    exact hprev
  · intro u
    refine Iff.trans ?_ (hs.covers u)
    have hsplit : t.Holds u ↔ Tile.Holds ⟨t.start, t.size - n, true⟩ u ∨
        Tile.Holds ⟨t.start + (t.size - n) * HEADER, n, false⟩ u := by
      simp only [Tile.Holds, Tile.stop, Tile.unit, HEADER]
      omega
    rw [covers_append, covers_append, covers_cons, covers_cons, covers_cons, hsplit, or_assoc]
  · have := hs.units
    simp only [total_append, total_cons] at this ⊢
    change _ = (h.obtained.map Prod.snd).sum
    rw [← this]
    congr 1
    omega
  · rw [starts_append, starts_append, starts_cons_of_ne (by simp), starts_cons_mk,
      starts_cons_of_ne (by simp [hfree])]
    exact List.perm_middle

theorem Owns.take_spec (hn : 0 < n) (hle : n ≤ h.size t.start) :
    ∃ q ts', (h.take n prevp t.start).1 = q + HEADER ∧
      Takes base h (L ++ t :: R) n q (h.take n prevp t.start).2 ts' := by
  have hsize := hs.size t (by simp)
  rw [hsize] at hle
  by_cases heq : t.size = n
  · subst heq
    have htake : h.take t.size prevp t.start
        = (t.start + HEADER, { h.setPtr prevp (h.ptr t.start) with freep := prevp }) := by
      rw [take, if_pos hsize]
    rw [htake]
    exact ⟨t.start, _, rfl, hs.take_all hfree hprev hptr⟩
  · have hlt : n < t.size := Nat.lt_of_le_of_ne hle (Ne.symm heq)
    have hadvance : advance t.start (t.size - n) = t.start + (t.size - n) * HEADER := by
      refine advance_eq ?_
      have := (hs.tiled.high t (by simp)).trans_lt hs.brk
      simp only [Tile.stop, Tile.unit, HEADER] at this ⊢
      omega
    have htake : h.take n prevp t.start = (t.start + (t.size - n) * HEADER + HEADER,
        { (h.setSize t.start (t.size - n)).setSize (t.start + (t.size - n) * HEADER) n with
          freep := prevp }) := by
      rw [take, if_neg (by rw [hsize]; exact heq)]
      simp only [size_setSize, update_self, hsize, hadvance]
    rw [htake]
    exact ⟨_, _, rfl, hs.take_part hfree hprev hn hlt⟩

end

/-- The loop of `malloc` over the nodes `m` and then `freep`: the first that is large enough is used, and
if there is none, more memory is asked for. -/
theorem mallocFrom_scan {m : List Nat} {prevp rounds : Nat} {answers : List (Option Nat)}
    (hchain : (prevp :: (m ++ [h.freep])).IsChain fun a b => h.ptr a = b) (hm : h.freep ∉ m) :
    (∃ prev ∈ prevp :: m, n ≤ h.size (h.ptr prev) ∧ ∀ k, m.length + 1 ≤ k →
      mallocFrom rounds n k h prevp (h.ptr prevp) answers = some (h.take n prev (h.ptr prev))) ∨
    (∀ x ∈ m ++ [h.freep], h.size x < n) ∧ ∀ k,
      mallocFrom rounds n (k + (m.length + 1)) h prevp (h.ptr prevp) answers =
        match h.morecore rounds n answers with
        | none => none
        | some (p', h', answers') =>
          if p' = 0 then some (0, h') else mallocFrom rounds n k h' p' (h'.ptr p') answers' := by
  induction m generalizing prevp with
  | nil =>
    have hptr : h.ptr prevp = h.freep := by simpa using hchain
    by_cases hsize : n ≤ h.size (h.ptr prevp)
    · refine .inl ⟨prevp, by simp, hsize, ?_⟩
      intro k hk
      obtain ⟨k, rfl⟩ := Nat.exists_eq_add_of_le hk
      rw [List.length_nil, Nat.zero_add, Nat.add_comm, mallocFrom, if_pos hsize]
    · refine .inr ⟨?_, ?_⟩
      · intro x hx
        obtain rfl : x = h.freep := by simpa using hx
        rw [← hptr]
        exact Nat.lt_of_not_le hsize
      · intro k
        rw [List.length_nil, Nat.zero_add]
        exact (if_neg hsize).trans (if_pos hptr)
  | cons x m ih =>
    rw [List.cons_append, List.isChain_cons_cons] at hchain
    obtain ⟨hptr, hchain⟩ := hchain
    have hx : x ≠ h.freep := by
      rintro rfl
      exact hm List.mem_cons_self
    by_cases hsize : n ≤ h.size x
    · refine .inl ⟨prevp, by simp, hptr ▸ hsize, ?_⟩
      intro k hk
      obtain ⟨k, rfl⟩ := Nat.exists_eq_add_of_le hk
      rw [Nat.add_comm, ← Nat.add_assoc, mallocFrom, hptr, if_pos hsize]
    · rcases ih hchain (fun hmem => hm (List.mem_cons_of_mem _ hmem)) with
        ⟨prev, hprev, hbig, hrun⟩ | ⟨hsmall, hrun⟩
      · refine .inl ⟨prev, List.mem_cons_of_mem _ hprev, hbig, ?_⟩
        intro k hk
        obtain ⟨k, rfl⟩ := Nat.exists_eq_add_of_le hk
        have hstep : (x :: m).length + 1 + k = m.length + 1 + k + 1 := by
          rw [List.length_cons]
          omega
        rw [hstep, mallocFrom, hptr, if_neg hsize, if_neg hx]
        exact hrun _ (Nat.le_add_right ..)
      · refine .inr ⟨?_, ?_⟩
        · intro y hy
          rcases List.mem_cons.mp hy with rfl | hy
          · exact Nat.lt_of_not_le hsize
          · exact hsmall y hy
        · intro k
          have hstep : k + ((x :: m).length + 1) = k + (m.length + 1) + 1 := rfl
          rw [hstep, mallocFrom, hptr, if_neg hsize, if_neg hx]
          exact hrun k

section

variable {rounds : Nat} {answers : List (Option Nat)}

theorem Sound.rotate (hs : h.Sound base ts) : ∃ m : List Nat,
    (h.freep :: (m ++ [h.freep])).IsChain (fun a b => h.ptr a = b) ∧ h.freep ∉ m ∧
      m.length = (starts true ts).length ∧ ∀ x, x ∈ h.freep :: m ↔ x ∈ base :: starts true ts := by
  obtain ⟨X, Z, hsplit⟩ := List.append_of_mem hs.freep
  have hring := hs.ring
  have hnodup : (base :: starts true ts).Nodup := hs.sorted.imp fun hab => hab.ne
  have hlen := congrArg List.length hsplit
  rw [hsplit] at hring hnodup
  have hrot := hring.rotate
  rw [List.cons_append, closed_cons] at hrot
  refine ⟨Z ++ X, hrot, ?_, ?_, ?_⟩
  · intro hmem
    rw [List.nodup_append] at hnodup
    rcases List.mem_append.mp hmem with hmem | hmem
    · exact (List.nodup_cons.mp hnodup.2.1).1 hmem
    · exact hnodup.2.2 _ hmem _ (by simp) rfl
  · simp only [List.length_cons, List.length_append] at hlen ⊢
    omega
  · intro x
    rw [hsplit]
    simp only [List.mem_cons, List.mem_append]
    tauto

theorem Owns.take_ptr (hs : h.Owns base ts) (hn : 0 < n) {prev : Nat}
    (hprev : prev ∈ base :: starts true ts) (hbig : n ≤ h.size (h.ptr prev)) :
    ∃ q ts', (h.take n prev (h.ptr prev)).1 = q + HEADER ∧
      Takes base h ts n q (h.take n prev (h.ptr prev)).2 ts' := by
  have hmem : h.ptr prev ∈ base :: starts true ts := by
    obtain ⟨X, Z, hsplit⟩ := List.append_of_mem hprev
    have hring := hs.ring
    rw [hsplit] at hring ⊢
    have hnext := List.mem_of_mem_head? hring.head?_eq
    simp only [List.mem_append, List.mem_cons, List.not_mem_nil, or_false] at hnext ⊢
    tauto
  rcases List.mem_cons.mp hmem with hbase | hstart
  · rw [hbase, hs.empty] at hbig
    omega
  · obtain ⟨t, ht, hfree, heq⟩ := mem_starts.mp hstart
    obtain ⟨L, R, rfl⟩ := List.append_of_mem ht
    rw [← heq] at hbig ⊢
    exact hs.take_spec hfree hprev heq.symm hn hbig

theorem Owns.mallocFrom_fits (hs : h.Owns base ts) (hn : 0 < n)
    (hbig : ∃ f ∈ ts, f.free = true ∧ n ≤ f.size) {k : Nat} (hk : ts.length + 1 ≤ k) :
    ∃ q h' ts', mallocFrom rounds n k h h.freep (h.ptr h.freep) answers = some (q + HEADER, h') ∧
      Takes base h ts n q h' ts' := by
  obtain ⟨m, hchain, hm, hlen, hmem⟩ := hs.rotate
  have hle : m.length + 1 ≤ k := by
    have hfilter := List.length_filter_le (fun t : Tile => t.free == true) ts
    rw [starts, List.length_map] at hlen
    omega
  rcases mallocFrom_scan (n := n) hchain hm with
    ⟨prev, hprev, hsize, hrun⟩ | ⟨hsmall, -⟩
  · obtain ⟨q, ts', hq, htakes⟩ := hs.take_ptr hn ((hmem prev).mp hprev) hsize
    refine ⟨q, _, ts', ?_, htakes⟩
    rw [hrun k hle, ← hq]
  · obtain ⟨f, hf, hfree, hfn⟩ := hbig
    have hstart : f.start ∈ base :: starts true ts :=
      List.mem_cons_of_mem _ (mem_starts.mpr ⟨f, hf, hfree, rfl⟩)
    have hin : f.start ∈ m ++ [h.freep] := by
      have := (hmem f.start).mpr hstart
      simp only [List.mem_cons, List.mem_append, List.not_mem_nil, or_false] at this ⊢
      tauto
    have := hsmall f.start hin
    rw [hs.size f hf] at this
    omega

theorem sbrkArg_of_lt {nu : Nat} (h : nu * HEADER < 2 ^ 31) : sbrkArg nu = (nu * HEADER : Nat) := by
  rw [sbrkArg, Nat.mod_eq_of_lt (h.trans (by decide)), if_pos h]

theorem sbrkEnd_natCast (p n : Nat) : sbrkEnd p n = p + n := by
  rw [sbrkEnd, if_neg (by omega)]
  omega

/-- What `sbrk` gives out is above what it gave out before, and within the address space. -/
def Fresh (nu : Nat) : Nat → List (Option Nat) → Prop
  | _, [] => True
  | brk, none :: answers => Fresh nu brk answers
  | brk, some p :: answers =>
    brk ≤ p ∧ sbrkEnd p (sbrkArg (max nu 4096)) < 2 ^ 32 ∧ Fresh nu (sbrkEnd p (sbrkArg (max nu 4096))) answers

instance Fresh.decidable (nu : Nat) : (brk : Nat) → (answers : List (Option Nat)) →
    Decidable (Fresh nu brk answers)
  | _, [] => .isTrue trivial
  | brk, none :: answers => Fresh.decidable nu brk answers
  | brk, some p :: answers =>
    have := Fresh.decidable nu (sbrkEnd p (sbrkArg (max nu 4096))) answers
    inferInstanceAs (Decidable (brk ≤ p ∧ sbrkEnd p (sbrkArg (max nu 4096)) < 2 ^ 32 ∧
      Fresh nu (sbrkEnd p (sbrkArg (max nu 4096))) answers))

theorem Owns.grow {p nu : Nat} (hs : h.Owns base ts) (hp : h.brk ≤ p) (hnu : 0 < nu)
    (hint : nu * HEADER < 2 ^ 31) (hlt : p + nu * HEADER < 2 ^ 32) :
    (h.grow p nu).Owns base (ts ++ [⟨p, nu, false⟩]) := by
  have hgrow : h.grow p nu = { h.setSize p nu with
      brk := p + nu * HEADER, obtained := h.obtained ++ [(p, nu * HEADER)] } := by
    rw [Heap.grow, sbrkArg_of_lt hint, sbrkEnd_natCast, Int.toNat_natCast]
  rw [hgrow]
  have hbase : base < p := by
    have := hs.above
    simp only [HEADER] at this
    omega
  have hstarts : starts true (ts ++ [⟨p, nu, false⟩]) = starts true ts := by
    rw [starts_append, starts_cons_of_ne (by simp)]
    exact List.append_nil _
  refine ⟨⟨⟨?_, ?_, ?_, ?_⟩, ?_, ?_⟩, ?_, ?_, ?_⟩
  · intro x hx
    change (h.setSize p nu).size x.start = x.size
    rw [size_setSize]
    rcases List.mem_append.mp hx with hx | hx
    · have := hs.tiled.start_lt_stop hx
      have := hs.tiled.high x hx
      rw [update_of_ne (by omega)]
      exact hs.size x hx
    · obtain rfl : x = ⟨p, nu, false⟩ := by simpa using hx
      exact update_self ..
  · change Closed (h.setSize p nu).ptr _
    rw [ptr_setSize, hstarts]
    exact hs.ring
  · change (h.setSize p nu).size base = 0
    rw [size_setSize, update_of_ne hbase.ne]
    exact hs.empty
  · change h.freep ∈ _
    rw [hstarts]
    exact hs.freep
  · exact hs.tiled.grow hp (hs.above.trans hp) hnu
  · exact hlt
  · exact (hs.above.trans hp).trans (Nat.le_add_right ..)
  · intro u
    rw [covers_append, hs.covers u]
    constructor
    · rintro (⟨r, hr, hu⟩ | ⟨t, ht, hu⟩)
      · exact ⟨r, List.mem_append_left _ hr, hu⟩
      · obtain rfl : t = ⟨p, nu, false⟩ := by simpa using ht
        exact ⟨(p, nu * HEADER), by simp, hu⟩
    · rintro ⟨r, hr, hu⟩
      rcases List.mem_append.mp hr with hr | hr
      · exact .inl ⟨r, hr, hu⟩
      · obtain rfl : r = (p, nu * HEADER) := by simpa using hr
        exact .inr ⟨⟨p, nu, false⟩, by simp, hu⟩
  · change _ = ((h.obtained ++ [(p, nu * HEADER)]).map Prod.snd).sum
    rw [total_append, Nat.add_mul, hs.units]
    simp [total]

/-- `morecore` fails and changes nothing, or there is a free block that is large enough. -/
theorem Owns.morecore_spec (hs : h.Owns base ts) (hbase : 0 < base) (hint : n ≤ 2 ^ 28 - 1)
    (hfresh : Fresh n h.brk answers) (hrounds : ts.length + 2 ≤ rounds) :
    (∃ answers', h.morecore rounds n answers = some (0, h, answers')) ∨
    ∃ h' ts' answers', h.morecore rounds n answers = some (h'.freep, h', answers') ∧ h'.freep ≠ 0 ∧
      h'.Owns base ts' ∧ starts false ts' = starts false ts ∧
      (∃ f ∈ ts', f.free = true ∧ n ≤ f.size) ∧ ts'.length ≤ ts.length + 1 := by
  match answers with
  | [] => exact .inl ⟨[], rfl⟩
  | none :: answers => exact .inl ⟨answers, rfl⟩
  | some p :: answers =>
    obtain ⟨hp, hlt, -⟩ := hfresh
    right
    have hmax : (if n < 4096 then 4096 else n) = max n 4096 := by
      split <;> omega
    have hint : max n 4096 * HEADER < 2 ^ 31 := by
      simp only [HEADER]
      omega
    rw [sbrkArg_of_lt hint, sbrkEnd_natCast] at hlt
    have hgrow := hs.grow hp (show 0 < max n 4096 by omega) hint hlt
    have hlength : (ts ++ [(⟨p, max n 4096, false⟩ : Tile)]).length + 1 ≤ rounds := by
      rwa [List.length_append]
    obtain ⟨h', ts', hfree, howns, hlive, ⟨f, hf, hff, hsize⟩, hlen, -⟩ :=
      hgrow.free_spec rfl hlength
    refine ⟨h', ts', answers, ?_, ?_, howns, ?_, ⟨f, hf, hff, (le_max_left ..).trans hsize⟩, ?_⟩
    · rw [morecore, hmax, hfree]
      rfl
    · intro hzero
      have hmem := howns.freep
      rw [hzero] at hmem
      rcases List.mem_cons.mp hmem with h0 | h0
      · omega
      · obtain ⟨t, ht, -, h0⟩ := mem_starts.mp h0
        have := howns.base_lt ht
        omega
    · rw [hlive, List.append_nil]
    · simpa using hlen

/-- `malloc` returns null and has changed nothing, or a block of its own. -/
theorem Owns.malloc_spec (hs : h.Owns base ts) (hbase : 0 < base) (hn : 0 < n) (hint : n ≤ 2 ^ 28 - 1)
    (hfresh : Fresh n h.brk answers) (hrounds : 2 * ts.length + 3 ≤ rounds) :
    mallocFrom rounds n rounds h h.freep (h.ptr h.freep) answers = some (0, h) ∨
    ∃ q h' ts', mallocFrom rounds n rounds h h.freep (h.ptr h.freep) answers = some (q + HEADER, h') ∧
      h'.Owns base ts' ∧ ⟨q, n, false⟩ ∈ ts' ∧ (starts false ts').Perm (q :: starts false ts) := by
  obtain ⟨m, hchain, hm, hlen, hmem⟩ := hs.rotate
  have hle : m.length ≤ ts.length := by
    rw [hlen, starts, List.length_map]
    exact List.length_filter_le ..
  rcases mallocFrom_scan (n := n) hchain hm with ⟨prev, hprev, hsize, hrun⟩ | ⟨-, hrun⟩
  · obtain ⟨q, ts', hq, htakes⟩ := hs.take_ptr hn ((hmem prev).mp hprev) hsize
    refine .inr ⟨q, _, ts', ?_, htakes.owns, htakes.block, htakes.live⟩
    rw [hrun rounds (by omega), ← hq]
  · obtain ⟨k, hk⟩ := Nat.exists_eq_add_of_le (show m.length + 1 ≤ rounds by omega)
    have hloop := hrun k
    rw [Nat.add_comm, ← hk] at hloop
    rw [hloop]
    rcases hs.morecore_spec hbase hint hfresh (by omega : ts.length + 2 ≤ rounds) with
      ⟨answers', hmore⟩ | ⟨h', ts', answers', hmore, hne, howns, hlive, hbig, hlen'⟩
    · exact .inl (by rw [hmore]; rfl)
    · obtain ⟨q, h'', ts'', hfits, htakes⟩ := howns.mallocFrom_fits hn hbig (by omega : ts'.length + 1 ≤ k)
      refine .inr ⟨q, h'', ts'', ?_, htakes.owns, htakes.block, hlive ▸ htakes.live⟩
      rw [hmore]
      simp only [if_neg hne]
      exact hfits

end

end Heap

end Xv6
