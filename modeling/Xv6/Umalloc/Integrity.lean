import Xv6.Umalloc.Malloc

/-!
# The heap over whole runs

Any sequence of calls by a program that frees what it has and writes to its own blocks.
-/

namespace Xv6

namespace Heap

theorem units_le {nbytes : Nat} (h : nbytes ≤ 2 ^ 31 - 16) :
    0 < units nbytes ∧ units nbytes ≤ 2 ^ 28 - 1 ∧ nbytes ≤ (units nbytes - 1) * HEADER := by
  have hmod : (nbytes + HEADER - 1) % 2 ^ 32 = nbytes + 7 := Nat.mod_eq_of_lt (by simp only [HEADER]; omega)
  simp only [units, hmod, HEADER]
  omega

variable {base : Nat} {h : Heap} {ts : List Tile}

theorem Sound.freep_ne_zero (hs : h.Sound base ts) (hbase : 0 < base) : h.freep ≠ 0 := by
  intro hzero
  have hmem := hs.freep
  rw [hzero] at hmem
  rcases List.mem_cons.mp hmem with h0 | h0
  · omega
  · obtain ⟨t, ht, -, h0⟩ := mem_starts.mp h0
    have := hs.base_lt ht
    omega

theorem start_of_ne_zero (hne : h.freep ≠ 0) : h.start base = h := if_neg hne

theorem Owns.write {t : Tile} {p : Nat} (x : Header) (hs : h.Owns base ts) (ht : t ∈ ts)
    (hlow : t.start < p) (hhigh : p < t.stop) :
    ({ h with mem := Function.update h.mem p x } : Heap).Owns base ts := by
  have hne : ∀ a ∈ ts, a.start ≠ p := by
    rintro a ha rfl
    obtain ⟨L, R, rfl⟩ := List.append_of_mem ht
    rcases List.mem_append.mp ha with ha | ha
    · have := hs.tiled.lt_left a ha
      have := hs.tiled.start_lt_stop (t := a) (by simp [ha])
      omega
    · rcases List.mem_cons.mp ha with rfl | ha
      · omega
      · have := hs.tiled.lt_right a ha
        omega
  have hbase := hs.base_lt ht
  have hmem : ∀ a, a ≠ p → Function.update h.mem p x a = h.mem a :=
    fun a ha => Function.update_of_ne ha ..
  refine { hs with size := ?_, ring := ?_, empty := ?_ }
  · intro a ha
    exact (congrArg Header.size (hmem _ (hne a ha))).trans (hs.size a ha)
  · refine hs.ring.congr ?_
    intro a ha
    refine congrArg Header.ptr (hmem a ?_)
    rcases List.mem_cons.mp ha with rfl | ha
    · omega
    · obtain ⟨b, hb, -, rfl⟩ := mem_starts.mp ha
      exact hne b hb
  · exact (congrArg Header.size (hmem base (by omega))).trans hs.empty

end Heap

namespace Umalloc

open Heap

variable {base : Nat} {s s' : Umalloc} {mem : Nat → Header} {brk : Nat} {ts : List Tile}

/-- Requests are below `2 ^ 31 - 16` bytes, only live pointers are freed, and the program writes to its
own blocks only. -/
def Permitted (s : Umalloc) : Event → Prop
  | .malloc nbytes answers => nbytes < 2 ^ 31 - 16 ∧ Fresh (units nbytes) s.heap.brk answers
  | .free ap => ap ∈ s.live
  | .write p _ => ∃ ap ∈ s.live, ap ≤ p ∧ p < ap - HEADER + s.heap.size (ap - HEADER) * HEADER

instance (s : Umalloc) : (e : Event) → Decidable (s.Permitted e)
  | .malloc nbytes answers =>
    inferInstanceAs (Decidable (nbytes < 2 ^ 31 - 16 ∧ Fresh (units nbytes) s.heap.brk answers))
  | .free ap => inferInstanceAs (Decidable (ap ∈ s.live))
  | .write p _ => inferInstanceAs (Decidable
      (∃ ap ∈ s.live, ap ≤ p ∧ p < ap - HEADER + s.heap.size (ap - HEADER) * HEADER))

/-- The heap has its blocks, of which those in use are the live ones. -/
structure Inv (base : Nat) (s : Umalloc) (ts : List Tile) : Prop where
  owns : (s.heap.start base).Owns base ts
  live : (starts false ts).Perm (s.live.map (· - HEADER))
  header : ∀ ap ∈ s.live, HEADER ≤ ap
  /-- Before the first call there is no memory. -/
  started : s.heap.freep = 0 → ts = []

theorem obtained_start (h : Heap) : (h.start base).obtained = h.obtained := by
  rw [Heap.start]
  split <;> rfl

theorem brk_start (h : Heap) : (h.start base).brk = h.brk := by
  rw [Heap.start]
  split <;> rfl

theorem Inv.block (hs : s.Inv base ts) {ap : Nat} (hap : ap ∈ s.live) :
    s.heap.start base = s.heap ∧
      ∃ L t R, ts = L ++ t :: R ∧ t.free = false ∧ ap = t.start + HEADER := by
  have hmem : ap - HEADER ∈ starts false ts := hs.live.mem_iff.mpr (List.mem_map_of_mem hap)
  obtain ⟨t, ht, hlive, hstart⟩ := mem_starts.mp hmem
  obtain ⟨L, R, rfl⟩ := List.append_of_mem ht
  have hap' := hs.header ap hap
  refine ⟨?_, L, t, R, rfl, hlive, by omega⟩
  refine start_of_ne_zero fun hzero => ?_
  simpa using hs.started hzero

theorem Inv.rounds_le (hs : s.Inv base ts) : 2 * ts.length + 3 ≤ s.rounds := by
  have hlen := hs.owns.tiled.length_le_total
  have hunits := hs.owns.units
  rw [obtained_start] at hunits
  simp only [HEADER] at hunits
  rw [rounds]
  omega

theorem Inv.of_owns {h' : Heap} {live : List Nat} (hbase : 0 < base) (howns : h'.Owns base ts)
    (hlive : (starts false ts).Perm (live.map (· - HEADER))) (hheader : ∀ ap ∈ live, HEADER ≤ ap) :
    Inv base ⟨h', live⟩ ts := by
  have hne := howns.freep_ne_zero hbase
  refine ⟨?_, hlive, hheader, fun hzero => absurd hzero hne⟩
  rw [start_of_ne_zero hne]
  exact howns

section

variable (hs : s.Inv base ts) (hbase : 0 < base)
include hs hbase

theorem Inv.malloc {nbytes : Nat} {answers : List (Option Nat)}
    (hok : s.Permitted (.malloc nbytes answers)) :
    ∃ s' ts', s.step base (.malloc nbytes answers) = .next s' ∧ s'.Inv base ts' ∧
      (s'.live = s.live ∨ ∃ ap, s'.live = s.live ++ [ap] ∧ nbytes ≤ (s'.heap.size (ap - HEADER) - 1) * HEADER) := by
  obtain ⟨hbytes, hfresh⟩ := hok
  obtain ⟨hpos, hint, hfit⟩ := units_le (Nat.le_of_lt hbytes)
  rw [← brk_start] at hfresh
  rw [step_malloc, Heap.malloc]
  rcases hs.owns.malloc_spec hbase hpos hint hfresh hs.rounds_le with
    hnull | ⟨q, h', ts', hrun, howns, hblock, hlive⟩
  · refine ⟨⟨s.heap.start base, s.live⟩, ts, ?_, .of_owns hbase hs.owns hs.live hs.header, .inl rfl⟩
    rw [hnull]
    rfl
  · refine ⟨⟨h', s.live ++ [q + HEADER]⟩, ts', ?_, ?_, .inr ⟨_, rfl, ?_⟩⟩
    · rw [hrun]
      simp only [HEADER, Nat.add_eq_zero_iff, reduceCtorEq, and_false, if_false]
    · refine .of_owns hbase howns ?_ ?_
      · refine hlive.trans ?_
        rw [List.map_append]
        refine ((hs.live.cons q).trans ?_)
        simpa using (List.perm_append_singleton q _).symm
      · intro ap hap
        rcases List.mem_append.mp hap with hap | hap
        · exact hs.header ap hap
        · obtain rfl : ap = q + HEADER := by simpa using hap
          exact Nat.le_add_left ..
    · simp only [Nat.add_sub_cancel]
      rw [howns.size _ hblock]
      exact hfit

theorem Inv.free {ap : Nat} (hok : s.Permitted (.free ap)) :
    ∃ s' ts', s.step base (.free ap) = .next s' ∧ s'.Inv base ts' := by
  obtain ⟨hstart, L, t, R, rfl, hused, rfl⟩ := hs.block hok
  have howns := hs.owns
  rw [hstart] at howns
  have hrounds : (L ++ t :: R).length + 1 ≤ s.rounds := by
    have := hs.rounds_le
    omega
  obtain ⟨h', ts', hfree, howns', hlive, -⟩ := howns.free_spec hused hrounds
  refine ⟨⟨h', s.live.erase (t.start + HEADER)⟩, ts', ?_, .of_owns hbase howns' ?_ ?_⟩
  · rw [step_free, hfree]
  · rw [hlive]
    have hold := hs.live
    rw [starts_append, starts_cons_of_eq hused] at hold
    have herase := (List.perm_cons_erase (show t.start + HEADER ∈ s.live from hok)).map (· - HEADER)
    rw [List.map_cons, Nat.add_sub_cancel] at herase
    have hcons := (List.perm_middle.symm.trans hold).trans herase
    rw [starts_append]
    exact hcons.cons_inv
  · exact fun ap hap => hs.header ap (List.mem_of_mem_erase hap)

theorem Inv.write {p : Nat} {x : Header}
    (hok : s.Permitted (.write p x)) : ∃ s', s.step base (.write p x) = .next s' ∧ s'.Inv base ts := by
  obtain ⟨ap, hap, hlow, hhigh⟩ := hok
  obtain ⟨hstart, L, t, R, rfl, -, rfl⟩ := hs.block hap
  have howns := hs.owns
  rw [hstart] at howns
  rw [Nat.add_sub_cancel, howns.size t (by simp)] at hhigh
  refine ⟨_, rfl, .of_owns hbase (howns.write (t := t) x (by simp) ?_ hhigh) hs.live hs.header⟩
  simp only [HEADER] at hlow
  omega

theorem Inv.step {e : Event} (hok : s.Permitted e) :
    ∃ s' ts', s.step base e = .next s' ∧ s'.Inv base ts' := by
  cases e with
  | malloc nbytes answers =>
    obtain ⟨s', ts', hs', hinv, -⟩ := hs.malloc hbase hok
    exact ⟨s', ts', hs', hinv⟩
  | free ap => exact hs.free hbase hok
  | write p x =>
    obtain ⟨s', hs', hinv⟩ := hs.write hbase hok
    exact ⟨s', ts, hs', hinv⟩

end

theorem Inv.init (hbrk : base + HEADER ≤ brk) (hlt : brk < 2 ^ 32) : (init mem brk).Inv base [] := by
  refine ⟨?_, .refl _, nofun, fun _ => rfl⟩
  refine ⟨⟨⟨nofun, ?_, ?_, ?_⟩, ⟨.nil, nofun, nofun, nofun⟩, hlt⟩, hbrk, ?_, rfl⟩
  · have hptr : ((Umalloc.init mem brk).heap.start base).ptr base = base := by
      simp [Umalloc.init, Heap.start, Heap.setPtr, Heap.setSize, Heap.ptr]
    exact closed_cons.mpr (by simpa [starts] using hptr)
  · simp [Umalloc.init, Heap.start, Heap.setPtr, Heap.setSize, Heap.size]
  · simp [Umalloc.init, Heap.start]
  · intro u
    rw [obtained_start]
    simp [Covers, Umalloc.init]

/-- The two blocks have no byte in common. -/
def Disjoint (h : Heap) (a b : Nat) : Prop := a + h.size a * HEADER ≤ b ∨ b + h.size b * HEADER ≤ a

theorem Inv.disjoint (hs : s.Inv base ts) (hstart : s.heap.start base = s.heap) :
    (starts true ts ++ s.live.map (· - HEADER)).Pairwise (Disjoint s.heap) := by
  have hsymm : ∀ {a b}, Disjoint s.heap a b → Disjoint s.heap b a := fun hab => Or.symm hab
  have hall : (ts.map Tile.start).Pairwise (Disjoint s.heap) := by
    rw [List.pairwise_map]
    refine hs.owns.tiled.pairwise.imp_of_mem fun {a b} ha _ hab => .inl ?_
    rw [← hstart, hs.owns.size a ha]
    exact hab
  have hperm : (starts true ts ++ s.live.map (· - HEADER)).Perm (ts.map Tile.start) := by
    refine (hs.live.symm.append_left _).trans ?_
    have hfilter : ts.filter (fun t => t.free == false) = ts.filter fun t => !(t.free == true) := by
      congr 1
      funext t
      cases t.free <;> rfl
    rw [starts, starts, hfilter, ← List.map_append]
    exact (List.filter_append_perm ..).map _
  exact (hperm.pairwise_iff hsymm).mpr hall

theorem Inv.covers (hs : s.Inv base ts) (hstart : s.heap.start base = s.heap) (u : Nat) :
    (∃ a ∈ starts true ts ++ s.live.map (· - HEADER), a ≤ u ∧ u < a + s.heap.size a * HEADER) ↔
      ∃ r ∈ s.heap.obtained, r.1 ≤ u ∧ u < r.1 + r.2 := by
  have hcovers := hs.owns.covers u
  rw [obtained_start] at hcovers
  rw [← hcovers]
  have hsize : ∀ t ∈ ts, s.heap.size t.start = t.size := fun t ht => hstart ▸ hs.owns.size t ht
  constructor
  · rintro ⟨a, ha, hu⟩
    have hmem : ∃ t ∈ ts, t.start = a := by
      rcases List.mem_append.mp ha with ha | ha
      · obtain ⟨t, ht, -, hta⟩ := mem_starts.mp ha
        exact ⟨t, ht, hta⟩
      · obtain ⟨t, ht, -, hta⟩ := mem_starts.mp (hs.live.mem_iff.mpr ha)
        exact ⟨t, ht, hta⟩
    obtain ⟨t, ht, rfl⟩ := hmem
    rw [hsize t ht] at hu
    exact ⟨t, ht, hu⟩
  · rintro ⟨t, ht, hu⟩
    refine ⟨t.start, ?_, by rw [hsize t ht]; exact hu⟩
    cases hfree : t.free with
    | true => exact List.mem_append_left _ (mem_starts.mpr ⟨t, ht, hfree, rfl⟩)
    | false =>
      exact List.mem_append_right _ (hs.live.mem_iff.mp (mem_starts.mpr ⟨t, ht, hfree, rfl⟩))

/-- Whatever the program does: the free blocks, in increasing order, are a ring through `base` that `freep`
points into; no two of them touch; free and live blocks have no byte in common and together are the memory
obtained from `sbrk`; no loop runs on forever; and what `malloc` returns has the bytes asked for. -/
theorem heap_integrity (hbase : 0 < base) (hbrk : base + HEADER ≤ brk) (hlt : brk < 2 ^ 32)
    (h : Reach (step base) Permitted (init mem brk) s) :
    ∃ free : List Nat,
      (s.heap.freep = 0 ∧ free = [] ∧ s.live = [] ∨
        Closed s.heap.ptr (base :: free) ∧ s.heap.freep ∈ base :: free) ∧
      (base :: free).Pairwise (· < ·) ∧
      (∀ a ∈ free, ∀ b ∈ free, a + s.heap.size a * HEADER ≠ b) ∧
      (free ++ s.live.map (· - HEADER)).Pairwise (Disjoint s.heap) ∧
      (∀ u, (∃ a ∈ free ++ s.live.map (· - HEADER), a ≤ u ∧ u < a + s.heap.size a * HEADER) ↔
        ∃ r ∈ s.heap.obtained, r.1 ≤ u ∧ u < r.1 + r.2) ∧
      (∀ e, s.Permitted e → ∃ s', s.step base e = .next s') ∧
      ∀ nbytes answers s', s.Permitted (.malloc nbytes answers) →
        s.step base (.malloc nbytes answers) = .next s' →
        s'.live = s.live ∨ ∃ ap, s'.live = s.live ++ [ap] ∧
          nbytes ≤ (s'.heap.size (ap - HEADER) - 1) * HEADER ∧
          ∀ b ∈ s.live, Disjoint s'.heap (b - HEADER) (ap - HEADER) := by
  obtain ⟨ts, hs⟩ : ∃ ts, s.Inv base ts := by
    refine h.invariant (I := fun s => ∃ ts, s.Inv base ts) ⟨[], .init hbrk hlt⟩ ?_
    rintro s e s' ⟨ts, hs⟩ hok hstep
    obtain ⟨t, ts', ht, hinv⟩ := hs.step hbase hok
    cases ht.symm.trans hstep
    exact ⟨ts', hinv⟩
  have hprogress : ∀ e, s.Permitted e → ∃ s', s.step base e = .next s' := by
    intro e hok
    obtain ⟨s', -, hs', -⟩ := hs.step hbase hok
    exact ⟨s', hs'⟩
  have hmalloc : ∀ nbytes answers s', s.Permitted (.malloc nbytes answers) →
      s.step base (.malloc nbytes answers) = .next s' →
      s'.live = s.live ∨ ∃ ap, s'.live = s.live ++ [ap] ∧
        nbytes ≤ (s'.heap.size (ap - HEADER) - 1) * HEADER ∧
        ∀ b ∈ s.live, Disjoint s'.heap (b - HEADER) (ap - HEADER) := by
    intro nbytes answers s' hok hstep
    obtain ⟨t, ts', ht, hinv, hresult⟩ := hs.malloc hbase hok
    cases ht.symm.trans hstep
    refine hresult.imp_right ?_
    rintro ⟨ap, hlive, hbytes⟩
    refine ⟨ap, hlive, hbytes, ?_⟩
    intro b hb
    have hap : ap ∈ s'.live := by simp [hlive]
    have hdisjoint := (List.pairwise_append.mp (hinv.disjoint (hinv.block hap).1)).2.1
    rw [hlive, List.map_append] at hdisjoint
    exact (List.pairwise_append.mp hdisjoint).2.2 _ (List.mem_map_of_mem hb) _ (by simp)
  by_cases hzero : s.heap.freep = 0
  · -- nothing has been asked for
    obtain rfl := hs.started hzero
    have hlive : s.live = [] := by simpa [starts] using hs.live
    refine ⟨[], .inl ⟨hzero, rfl, hlive⟩, by simp, by simp, by simp [hlive], ?_, hprogress, hmalloc⟩
    intro u
    have hcovers := hs.owns.covers u
    rw [obtained_start] at hcovers
    rw [← hcovers]
    simp [hlive, Covers]
  · have hstart : s.heap.start base = s.heap := start_of_ne_zero hzero
    have howns := hs.owns
    rw [hstart] at howns
    refine ⟨starts true ts, .inr ⟨howns.ring, howns.freep⟩, howns.sorted, ?_, hs.disjoint hstart,
      hs.covers hstart, hprogress, hmalloc⟩
    intro a ha b hb heq
    obtain ⟨t, ht, hft, rfl⟩ := mem_starts.mp ha
    obtain ⟨r, hr, hfr, rfl⟩ := mem_starts.mp hb
    rw [howns.size t ht] at heq
    obtain ⟨L, R, rfl⟩ := List.append_of_mem ht
    exact howns.tiled.stop_ne_start hft hr hfr heq

/-- Two blocks are taken from fresh memory, and the upper one is freed. -/
theorem heap_integrity_three :
    ∃ s : Umalloc, Reach (step 8) Permitted (init (fun _ => ⟨0, 0⟩) 16) s ∧ s.live = [32736] ∧
      ∃ free : List Nat,
        (s.heap.freep = 0 ∧ free = [] ∧ s.live = [] ∨
          Closed s.heap.ptr (8 :: free) ∧ s.heap.freep ∈ 8 :: free) ∧
        (free ++ s.live.map (· - HEADER)).Pairwise (Disjoint s.heap) := by
  obtain ⟨s, hrun, hlive⟩ := Outcome.exists_of_holds
    (r := runEvents (step 8) (init (fun _ => ⟨0, 0⟩) 16)
      [.malloc 10 [some 16], .malloc 20 [], .free 32768])
    (Q := fun s => s.live = [32736]) (by decide +kernel)
  have hreach : Reach (step 8) Permitted (init (fun _ => ⟨0, 0⟩) 16) s :=
    Reach.of_runEvents .init _ (by decide +kernel) hrun
  obtain ⟨free, hring, -, -, hdisjoint, -⟩ :=
    heap_integrity (by decide) (by decide) (by decide) hreach
  exact ⟨s, hreach, hlive, free, hring, hdisjoint⟩

end Umalloc

namespace Heap

variable {base : Nat} {h : Heap} {ts : List Tile}

/-- The bytes of a block behind its header -/
def usable (h : Heap) (ap : Nat) : Nat := (h.size (ap - HEADER) - 1) * HEADER

/-- `malloc` ends with null or with a block of at least `nbytes` bytes in the memory obtained, and the
process has not shrunk. -/
def Enough (base : Nat) (h : Heap) (rounds nbytes : Nat) (answers : List (Option Nat)) : Prop :=
  ∃ ap h', h.malloc base rounds nbytes answers = some (ap, h') ∧ h.brk ≤ h'.brk ∧
    (ap = 0 ∨ nbytes ≤ h'.usable ap ∧
      ∀ u, ap ≤ u → u < ap + h'.usable ap → ∃ r ∈ h'.obtained, r.1 ≤ u ∧ u < r.1 + r.2)

theorem brk_take (nunits prevp p : Nat) : (h.take nunits prevp p).2.brk = h.brk := by
  rw [take]
  split <;> rfl

theorem brk_free {h' : Heap} {rounds ap : Nat} (hfree : h.free rounds ap = some h') : h'.brk = h.brk := by
  obtain ⟨p, -, rfl⟩ := Option.map_eq_some_iff.mp hfree
  change (Heap.joinLower _ _ p).brk = h.brk
  rw [joinLower, ← brk_joinUpper (h := h) (ap - HEADER) p]
  split <;> rfl

theorem brk_morecore {h' : Heap} {rounds nu p : Nat} {answers answers' : List (Option Nat)}
    (hmore : h.morecore rounds nu answers = some (p, h', answers')) :
    h' = h ∧ (answers = [] ∧ answers' = [] ∨ answers = none :: answers') ∨
      ∃ q, answers = some q :: answers' ∧ h'.brk = sbrkEnd q (sbrkArg (max nu 4096)) := by
  match answers with
  | [] =>
    cases hmore
    exact .inl ⟨rfl, .inl ⟨rfl, rfl⟩⟩
  | none :: answers =>
    cases hmore
    exact .inl ⟨rfl, .inr rfl⟩
  | some q :: answers =>
    obtain ⟨h1, hfree, heq⟩ := Option.map_eq_some_iff.mp hmore
    cases heq
    refine .inr ⟨q, rfl, ?_⟩
    have hmax : (if nu < 4096 then 4096 else nu) = max nu 4096 := by
      split <;> omega
    rw [brk_free hfree, hmax]
    rfl

theorem brk_mallocFrom {h' : Heap} {rounds nu k prevp p ap : Nat} {answers : List (Option Nat)}
    (hrun : mallocFrom rounds nu k h prevp p answers = some (ap, h')) (hfresh : Fresh nu h.brk answers) :
    (0 ≤ sbrkArg (max nu 4096) → h.brk ≤ h'.brk) ∧ (answers = [] → h'.brk = h.brk) := by
  induction k generalizing h prevp p answers with
  | zero => cases hrun
  | succ k ih =>
    rw [mallocFrom] at hrun
    split at hrun
    · have hbrk : h'.brk = h.brk := by
        rw [← show (h.take nu prevp p).2 = h' from congrArg Prod.snd (Option.some.inj hrun), brk_take]
      exact ⟨fun _ => hbrk.ge, fun _ => hbrk⟩
    · split at hrun
      · split at hrun
        · cases hrun
        · rename_i p' h1 answers' hmore
          have hend : mallocFrom rounds nu k h1 p' (h1.ptr p') answers' = some (ap, h') ∨ h' = h1 := by
            split at hrun
            · exact .inr (Prod.mk.inj (Option.some.inj hrun)).2.symm
            · exact .inl hrun
          rcases brk_morecore hmore with ⟨rfl, hnone⟩ | ⟨q, rfl, hbrk⟩
          · have hfresh' : Fresh nu h1.brk answers' := by
              rcases hnone with ⟨-, rfl⟩ | rfl
              · trivial
              · exact hfresh
            rcases hend with hrun | rfl
            · obtain ⟨hle, heq⟩ := ih hrun hfresh'
              refine ⟨hle, ?_⟩
              rintro rfl
              obtain ⟨-, rfl⟩ := hnone.resolve_right (by simp)
              exact heq rfl
            · exact ⟨fun _ => le_rfl, fun _ => rfl⟩
          · obtain ⟨hq, -, hrest⟩ := hfresh
            rw [← hbrk] at hrest
            refine ⟨fun harg => ?_, by simp⟩
            have hgrown : h.brk ≤ h1.brk := by
              rw [hbrk, sbrkEnd, if_neg (by omega)]
              omega
            rcases hend with hrun | rfl
            · exact hgrown.trans ((ih hrun hrest).1 harg)
            · exact hgrown
      · exact ih hrun hfresh

theorem enough_of_le {nbytes rounds : Nat} {answers : List (Option Nat)} (hbase : 0 < base)
    (hs : (h.start base).Owns base ts) (hrounds : 2 * ts.length + 3 ≤ rounds)
    (hfresh : Fresh (units nbytes) h.brk answers) (hwhen : nbytes ≤ 2 ^ 31 - 16) :
    Enough base h rounds nbytes answers := by
  obtain ⟨hpos, hint, hfit⟩ := units_le hwhen
  have harg : 0 ≤ sbrkArg (max (units nbytes) 4096) := by
    rw [sbrkArg_of_lt (by simp only [HEADER]; omega)]
    exact Int.natCast_nonneg _
  have hbrk : (h.start base).brk = h.brk := Umalloc.brk_start h
  rw [← hbrk] at hfresh
  rw [Enough, malloc, ← hbrk]
  rcases hs.malloc_spec hbase hpos hint hfresh hrounds with hnull | ⟨q, h', ts', hrun, howns, hblock, -⟩
  · exact ⟨0, _, hnull, le_rfl, .inl rfl⟩
  · have hsize : h'.usable (q + HEADER) = (units nbytes - 1) * HEADER := by
      rw [usable, Nat.add_sub_cancel, howns.size _ hblock]
    refine ⟨q + HEADER, h', hrun, (brk_mallocFrom hrun hfresh).1 harg, .inr ⟨hsize ▸ hfit, fun u hu hlt => ?_⟩⟩
    rw [hsize] at hlt
    refine (howns.covers u).mp ⟨_, hblock, ?_, ?_⟩
    · change q ≤ u
      omega
    · change u < q + units nbytes * HEADER
      simp only [HEADER] at hlt hu ⊢
      omega

/-- The heap of a program that begins, with `base` at address 8 -/
def fresh (brk : Nat) : Heap := (Umalloc.init (fun _ => ⟨0, 0⟩) brk).heap

theorem fresh_owns {brk : Nat} (hbrk : 16 ≤ brk) (hlt : brk < 2 ^ 32) : ((fresh brk).start 8).Owns 8 [] :=
  (Umalloc.Inv.init hbrk hlt).owns

/-- For these numbers of units the first call returns a block, of no bytes or where nothing was obtained. -/
theorem not_enough_of_units {nbytes : Nat} (hpos : 0 < nbytes)
    (hunits : units nbytes = 1 ∨ units nbytes = 2 ^ 28 ∨ units nbytes = 2 ^ 29) :
    ¬Enough 8 (fresh 16) 3 nbytes [some 16] := by
  have hrun : ∀ nu ∈ [1, 2 ^ 28, 2 ^ 29], (mallocFrom 3 nu 3 ((fresh 16).start 8) 8 8 [some 16]).any
      (fun r => decide (r.1 ≠ 0 ∧ (r.2.usable r.1 = 0 ∨ ∀ x ∈ r.2.obtained, x.2 = 0))) = true := by
    decide +kernel
  rintro ⟨ap, h', hmalloc, -, hap⟩
  have hany := hrun (units nbytes) (by simpa using hunits)
  rw [show mallocFrom 3 (units nbytes) 3 ((fresh 16).start 8) 8 8 [some 16] = some (ap, h') from hmalloc] at hany
  obtain ⟨hne, hbad⟩ := of_decide_eq_true hany
  obtain ⟨hbytes, hin⟩ := hap.resolve_left hne
  rcases hbad with hzero | hnone
  · change h'.usable ap = 0 at hzero
    omega
  · obtain ⟨r, hr, hle, hlt⟩ := hin ap le_rfl (by omega)
    have hzero : r.2 = 0 := hnone r hr
    omega

/-- For the others from `2 ^ 28` on, `sbrk` is asked to take memory away. -/
theorem not_enough_of_lt {nbytes : Nat} (hlow : 2 ^ 28 < units nbytes) (hhigh : units nbytes < 2 ^ 29) :
    ¬Enough 8 (fresh (2 ^ 31 - 4)) 3 nbytes [some (2 ^ 31 - 4)] := by
  have harg : sbrkArg (max (units nbytes) 4096) = (units nbytes * 8 : Nat) - 2 ^ 32 := by
    rw [max_eq_left (by omega), sbrkArg, Nat.mod_eq_of_lt (by simp only [HEADER]; omega),
      if_neg (by simp only [HEADER]; omega)]
  have hend : sbrkEnd (2 ^ 31 - 4) (sbrkArg (max (units nbytes) 4096)) < 2 ^ 31 - 4 := by
    rw [harg, sbrkEnd, if_neg (by omega)]
    omega
  rintro ⟨ap, h', hmalloc, hbrk, -⟩
  have hbrk : 2 ^ 31 - 4 ≤ h'.brk := hbrk
  replace hmalloc : mallocFrom 3 (units nbytes) 3 ((fresh (2 ^ 31 - 4)).start 8) 8 8 [some (2 ^ 31 - 4)] =
    some (ap, h') := hmalloc
  have hsize : ¬((fresh (2 ^ 31 - 4)).start 8).size 8 ≥ units nbytes := by
    rw [show ((fresh (2 ^ 31 - 4)).start 8).size 8 = 0 from rfl]
    omega
  rw [mallocFrom, if_neg hsize, if_pos (show 8 = ((fresh (2 ^ 31 - 4)).start 8).freep from rfl)] at hmalloc
  split at hmalloc
  · cases hmalloc
  · rename_i p' h1 answers' hmore
    obtain ⟨q, hq, hbrk1⟩ := (brk_morecore hmore).resolve_left (by simp)
    cases hq
    split at hmalloc
    · obtain rfl := (Prod.mk.inj (Option.some.inj hmalloc)).2
      omega
    · have hnil := (brk_mallocFrom hmalloc trivial).2 rfl
      omega

/-- `malloc(nbytes)` is right in every heap, asks `sbrk` for more memory only and returns null or a block
with the bytes asked for, in the memory obtained, exactly for requests of at most `2 ^ 31 - 16` bytes. -/
theorem malloc_enough {nbytes : Nat} (hlt : nbytes < 2 ^ 32) :
    (∀ base h ts rounds answers, 0 < base → (h.start base).Owns base ts → 2 * ts.length + 3 ≤ rounds →
      Fresh (units nbytes) h.brk answers → Enough base h rounds nbytes answers) ↔ nbytes ≤ 2 ^ 31 - 16 := by
  constructor
  · intro hall
    by_contra hlarge
    have hunits : units nbytes = 1 ∨ units nbytes = 2 ^ 28 ∨ units nbytes = 2 ^ 29 ∨
        2 ^ 28 < units nbytes ∧ units nbytes < 2 ^ 29 := by
      simp only [units, HEADER]
      omega
    by_cases hmid : 2 ^ 28 < units nbytes ∧ units nbytes < 2 ^ 29
    · refine not_enough_of_lt hmid.1 hmid.2 ?_
      refine hall 8 (fresh (2 ^ 31 - 4)) [] 3 _ (by decide) (fresh_owns (by decide) (by decide)) le_rfl ?_
      refine ⟨le_rfl, ?_, trivial⟩
      rw [max_eq_left (by omega), sbrkArg, Nat.mod_eq_of_lt (by simp only [HEADER]; omega),
        if_neg (by simp only [HEADER]; omega), sbrkEnd, if_neg (by simp only [HEADER]; omega)]
      simp only [HEADER]
      omega
    · have hnot : ¬Enough 8 (fresh 16) 3 nbytes [some 16] := not_enough_of_units (by omega) (by omega)
      refine hnot (hall 8 (fresh 16) [] 3 _ (by decide) (fresh_owns (by decide) (by decide)) le_rfl ?_)
      rcases hunits with hone | hone | hone | hone
      · rw [hone]
        decide
      · rw [hone]
        decide
      · rw [hone]
        decide
      · exact absurd hone hmid
  · intro hwhen base h ts rounds answers hbase hs hrounds hfresh
    exact enough_of_le hbase hs hrounds hfresh hwhen

/-- A first request of 10 bytes gets the end of the new memory. -/
theorem malloc_enough_ten : ∃ h', (fresh 16).malloc 8 3 10 [some 16] = some (32768, h') ∧ 10 ≤ h'.usable 32768 := by
  have hten : 10 ≤ 2 ^ 31 - 16 := by decide
  obtain ⟨ap, h', hrun, -, hap⟩ := (malloc_enough (by decide)).mpr hten 8 (fresh 16) [] 3 [some 16] (by decide)
    (fresh_owns (by decide) (by decide)) le_rfl (by decide)
  have hblock : ((fresh 16).malloc 8 3 10 [some 16]).any (fun r => decide (r.1 = 32768)) = true := by decide +kernel
  rw [hrun] at hblock
  obtain rfl : ap = 32768 := of_decide_eq_true hblock
  exact ⟨h', hrun, (hap.resolve_left (by decide)).1⟩

/-- The sum for the units wraps, and so does the number of bytes asked for. -/
theorem malloc_wraps : ((fresh 16).start 8).Owns 8 [] ∧ ((fresh 4096).start 8).Owns 8 [] ∧
    (∃ ap h', (fresh 16).malloc 8 3 (2 ^ 32 - 1) [some 16] = some (ap, h') ∧ ap ≠ 0 ∧ h'.usable ap = 0) ∧
    ∃ ap h', (fresh 4096).malloc 8 3 (2 ^ 32 - 16) [some 4096] = some (ap, h') ∧ h'.brk = 4096 - 8 := by
  refine ⟨fresh_owns (by decide) (by decide), fresh_owns (by decide) (by decide), ?_, ?_⟩
  · obtain ⟨⟨ap, h'⟩, hrun, hap⟩ := (Option.any_eq_true ..).mp
      (show (((fresh 16).malloc 8 3 (2 ^ 32 - 1) [some 16]).any
        fun r => decide (r.1 ≠ 0 ∧ r.2.usable r.1 = 0)) = true by decide +kernel)
    exact ⟨ap, h', hrun, of_decide_eq_true hap⟩
  · obtain ⟨⟨ap, h'⟩, hrun, hbrk⟩ := (Option.any_eq_true ..).mp
      (show (((fresh 4096).malloc 8 3 (2 ^ 32 - 16) [some 4096]).any
        fun r => decide (r.2.brk = 4096 - 8)) = true by decide +kernel)
    exact ⟨ap, h', hrun, of_decide_eq_true hbrk⟩

end Heap

end Xv6
