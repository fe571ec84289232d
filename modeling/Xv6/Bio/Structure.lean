import Mathlib.Data.Fintype.Card
import Mathlib.Data.List.Count
import Xv6.Bio.Cache

/-!
# The structure of the buffer cache

Over every interleaving of `bget` and `brelse`, the links of the buffers form one circle through all
of them, a block has at most one buffer, and `refcnt` counts the processes that use a buffer, so that
a buffer keeps its block as long as it has a user or is dirty.  The buffers that no one has used yet
say that they carry block 0 of device 0; they stand behind the one that is in use for this block, if
there is one, and a search does not reach them.
-/

namespace Xv6.Bcache

open Bio
open Function (update_eq_self update_of_ne update_self)

variable {P : Type} {c c' : Bcache P} {e : Event P} {p : P} {b : Buf}

/-- The links go once through every buffer. -/
def Linked (k : Links Node) (l : List Buf) : Prop := k.Circle none (l.map some) ∧ ∀ b, b ∈ l

/-- The buffer carries the block. -/
def carries (c : Bcache P) (b : Buf) (dev blockno : Nat) : Prop :=
  (c.buf b).dev = dev ∧ (c.buf b).blockno = blockno

instance (c : Bcache P) (b : Buf) (dev blockno : Nat) : Decidable (c.carries b dev blockno) :=
  inferInstanceAs (Decidable (_ ∧ _))

/-- The buffer is as `binit` has left it. -/
def fresh (c : Bcache P) (b : Buf) : Prop :=
  c.carries b 0 0 ∧ (c.buf b).refcnt = 0 ∧ (c.buf b).valid = false

/-- A buffer in use for block 0 of device 0 stands in front of the fresh ones. -/
def Ordered (c : Bcache P) (l : List Buf) : Prop :=
  l.Pairwise fun b b' => c.fresh b → c.carries b' 0 0 → c.fresh b'

/-- Links, blocks and counts. -/
structure Shape (c : Bcache P) : Prop where
  linked : ∃ l, Linked c.links l ∧ c.Ordered l
  unique : ∀ b b' dev blockno, ¬c.fresh b → ¬c.fresh b' → c.carries b dev blockno →
    c.carries b' dev blockno → b = b'
  refcnt : ∀ b, (c.buf b).refcnt = c.users.countP (·.buf = b)
  block : ∀ u ∈ c.users, c.carries u.buf u.dev u.blockno

/-- `p` has a reference to `b`. -/
def uses (c : Bcache P) (p : P) (b : Buf) : Prop := ∃ u ∈ c.users, u.proc = p ∧ u.buf = b

/-- Who works with a buffer, and how far it is loaded. -/
structure Owned (c : Bcache P) : Prop where
  works : ∀ p b, (c.pc p).buf = some b → c.uses p b
  locks : ∀ p b, (c.buf b).lock = some p → c.uses p b
  loads : ∀ p b, c.pc p = .load b → (c.buf b).lock = some p
  drops : ∀ p b, c.pc p = .drop b → (c.buf b).lock ≠ some p ∧ (c.buf b).valid = true
  loaded : ∀ p b, (c.buf b).lock = some p → c.pc p ≠ .load b → (c.buf b).valid = true
  pinned : ∀ b, (c.buf b).dirty = true → (c.buf b).valid = true

structure Inv (c : Bcache P) : Prop extends Shape c, Owned c

variable {l : List Buf}

theorem Linked.length_le {k : Links Node} (h : Linked k l) : l.length ≤ NBUF := by
  have hnodup : l.Nodup := List.Nodup.of_map _ (List.nodup_cons.mp h.1.nodup).2
  simpa using hnodup.length_le_card

theorem join_find_map_some (l : List Buf) (test : Buf → Bool) :
    ((l.map some).find? fun node => node.any test).join = l.find? test := by
  rw [List.find?_map]
  change (Option.map some (l.find? test)).join = _
  cases l.find? test <;> rfl

theorem find_next (h : Linked c.links l) (test : Entry P → Bool) :
    c.find c.links.next test = some (l.find? fun b => test (c.buf b)) := by
  have hlen : (l.map some).length < NBUF + 1 := by
    rw [List.length_map]
    exact Nat.lt_succ_of_le h.length_le
  rw [find, h.1.walk_eq hlen, Option.map_some, join_find_map_some]

theorem find_prev (h : Linked c.links l) (test : Entry P → Bool) :
    c.find c.links.prev test = some (l.reverse.find? fun b => test (c.buf b)) := by
  have hlen : (l.map some).length < NBUF + 1 := by
    rw [List.length_map]
    exact Nat.lt_succ_of_le h.length_le
  rw [find, h.1.walk_prev_eq hlen, ← List.map_reverse, Option.map_some, join_find_map_some]

variable [DecidableEq P]

theorem bget_ne_hang (h : c.Shape) (p : P) (dev blockno : Nat) :
    c.bget p dev blockno ≠ .panic .hang := by
  obtain ⟨l, hl, -⟩ := h.linked
  rw [bget, find_next hl]
  cases l.find? _ with
  | some b => nofun
  | none =>
    rw [find_prev hl]
    cases l.reverse.find? _ with
    | some b => nofun
    | none => nofun

/-- The buffer is the first one in the list that carries its block. -/
def First (c : Bcache P) (b : Buf) : Prop :=
  ∀ l, Linked c.links l → ∃ l₁ l₂, l = l₁ ++ b :: l₂ ∧
    ∀ b' ∈ l₁, ¬c.carries b' (c.buf b).dev (c.buf b).blockno

variable {dev blockno : Nat}

/-- `bget` returns the buffer of the block, or one that is not in use where the block has none. -/
theorem bget_cases (h : c.Shape) (hb : c.bget p dev blockno = .next (b, c')) :
    (c.carries b dev blockno ∧ c.First b ∧ c' = c.hit p b) ∨
      ((∀ b', ¬c.carries b' dev blockno) ∧ (c.buf b).refcnt = 0 ∧ (c.buf b).dirty = false ∧
        c' = c.recycle p b dev blockno) := by
  obtain ⟨l, hl, -⟩ := h.linked
  rw [bget] at hb
  cases hfind : c.find c.links.next fun x => x.dev = dev ∧ x.blockno = blockno with
  | none =>
    simp only [hfind] at hb
    cases hb
  | some found =>
    cases found with
    | some b' =>
      simp only [hfind, Outcome.next.injEq, Prod.mk.injEq] at hb
      obtain ⟨rfl, rfl⟩ := hb
      have hsome : ∀ l, Linked c.links l → l.find? (fun b =>
          decide ((c.buf b).dev = dev ∧ (c.buf b).blockno = blockno)) = some b' :=
        fun l hl => Option.some.inj ((find_next hl _).symm.trans hfind)
      have htest := List.find?_some (hsome l hl)
      obtain ⟨rfl, rfl⟩ := of_decide_eq_true htest
      refine .inl ⟨⟨rfl, rfl⟩, fun l hl => ?_, rfl⟩
      obtain ⟨-, l₁, l₂, heq, hnot⟩ := List.find?_eq_some_iff_append.mp (hsome l hl)
      exact ⟨l₁, l₂, heq, fun x hx hcarries => by simpa [hcarries.1, hcarries.2] using hnot x hx⟩
    | none =>
      have hmissing : ∀ b', ¬c.carries b' dev blockno := by
        intro b' hcarries
        have hnone := Option.some.inj ((find_next hl _).symm.trans hfind)
        exact List.find?_eq_none.mp hnone b' (hl.2 b') (decide_eq_true hcarries)
      simp only [hfind, find_prev hl] at hb
      cases hfree : l.reverse.find?
          (fun b => decide ((c.buf b).refcnt = 0 ∧ (c.buf b).dirty = false)) with
      | none =>
        simp only [hfree] at hb
        cases hb
      | some b' =>
        simp only [hfree, Outcome.next.injEq, Prod.mk.injEq] at hb
        obtain ⟨rfl, rfl⟩ := hb
        have htest := List.find?_some hfree
        obtain ⟨hrefcnt, hdirty⟩ := of_decide_eq_true htest
        exact .inr ⟨hmissing, hrefcnt, hdirty, rfl⟩

inductive Move (c : Bcache P) : Event P → Bcache P → Prop where
  | hit {p : P} {b : Buf} (idle : c.pc p = .idle) (first : c.First b) :
      Move c (.bread p (c.buf b).dev (c.buf b).blockno) (c.hit p b)
  | recycle {p : P} {b : Buf} {dev blockno : Nat} (idle : c.pc p = .idle)
      (missing : ∀ b', ¬c.carries b' dev blockno)
      (free : (c.buf b).refcnt = 0) (clean : (c.buf b).dirty = false) :
      Move c (.bread p dev blockno) (c.recycle p b dev blockno)
  | lock {p : P} {b : Buf} (wait : c.pc p = .wait b) (free : (c.buf b).lock = none) :
      Move c (.run p) ((c.modify b fun x =>
        { x with lock := some p, touched := false, changed := false }).goto p (.load b))
  | found {p : P} {b : Buf} (load : c.pc p = .load b) (valid : (c.buf b).valid = true) :
      Move c (.run p) (c.goto p .idle)
  | read {p : P} {b : Buf} (load : c.pc p = .load b) (valid : (c.buf b).valid = false) :
      Move c (.run p) ((c.goto p .idle).modify b fun y =>
        { y with valid := true, data := c.disk (c.buf b).dev (c.buf b).blockno })
  | drop {p : P} {b : Buf} (drop : c.pc p = .drop b) : Move c (.run p) (c.drop p b)
  | modify {p : P} {b : Buf} {data : Block} (holds : c.holds p b) :
      Move c (.modify p b data)
        (c.modify b fun x => { x with data := data, touched := true, changed := true })
  | pin {p : P} {b : Buf} (holds : c.holds p b) :
      Move c (.pin p b) (c.modify b fun x => { x with dirty := true, changed := false })
  | write {p : P} {b : Buf} (holds : c.holds p b) :
      Move c (.bwrite p b) { c.modify b fun x =>
          { x with dirty := false, valid := true, changed := false } with
        disk := Function.update c.disk (c.buf b).dev
          (Function.update (c.disk (c.buf b).dev) (c.buf b).blockno (c.buf b).data) }
  | release {p : P} {b : Buf} {record : Bool} (holds : c.holds p b) :
      Move c (.brelse p b record)
        { (c.modify b fun x => { x with lock := none }).goto p (.drop b) with
          released :=
            if record then
              Function.update c.released (c.buf b).dev
                (Function.update (c.released (c.buf b).dev) (c.buf b).blockno (c.buf b).data)
            else c.released }

omit [DecidableEq P] in
theorem modify_modify (f g : Entry P → Entry P) :
    (c.modify b f).modify b g = c.modify b (g ∘ f) := by
  simp [modify]

theorem bwrite_eq (h : (c.buf b).lock = some p) :
    c.bwrite p b = .next { c.modify b fun x =>
        { x with dirty := false, valid := true, changed := false } with
      disk := Function.update c.disk (c.buf b).dev
        (Function.update (c.disk (c.buf b).dev) (c.buf b).blockno (c.buf b).data) } := by
  have hself : (c.modify b fun x => { x with dirty := true, changed := false }).buf b =
      { c.buf b with dirty := true, changed := false } := update_self ..
  rw [bwrite, if_pos h, iderw, hself]
  simp only [h, ne_eq, not_true_eq_false, if_false, Bool.true_eq_false, and_false, if_true,
    modify_modify]
  rfl

theorem Move.of_run (h : c.Inv) (hs : c.run p = .next c') : Move c (.run p) c' := by
  rw [run] at hs
  cases hpc : c.pc p with
  | idle =>
    simp only [hpc] at hs
    cases hs
  | wait b =>
    simp only [hpc] at hs
    split_ifs at hs with hlock
    cases hs
    exact .lock hpc hlock
  | load b =>
    simp only [hpc] at hs
    split_ifs at hs with hvalid
    · cases hs
      exact .found hpc hvalid
    · -- A dirty buffer is valid, so that `iderw` reads.
      have hclean : ¬(c.buf b).dirty = true := fun hdirty => hvalid (h.pinned b hdirty)
      have hbuf : (c.goto p .idle).buf = c.buf := rfl
      simp only [iderw, hbuf, h.loads p b hpc, ne_eq, not_true_eq_false, if_false, hvalid, hclean,
        false_and, Bool.false_eq_true] at hs
      obtain rfl := Outcome.next.inj hs
      exact .read hpc (Bool.not_eq_true _ ▸ hvalid)
  | drop b =>
    simp only [hpc] at hs
    obtain rfl := Outcome.next.inj hs
    exact .drop hpc

theorem Move.of_step (h : c.Inv) (hs : c.step e = .next c') : Move c e c' := by
  cases e with
  | bread p dev blockno =>
    rw [step] at hs
    split_ifs at hs with hidle
    split at hs <;> cases hs
    rename_i r hget
    rcases bget_cases h.toShape hget with ⟨⟨rfl, rfl⟩, hfirst, rfl⟩ | ⟨hmissing, hfree, hclean, rfl⟩
    · exact .hit hidle hfirst
    · exact .recycle hidle hmissing hfree hclean
  | run p => exact .of_run h hs
  | modify p b data =>
    rw [step] at hs
    split_ifs at hs with hholds
    cases hs
    exact .modify hholds
  | pin p b =>
    rw [step] at hs
    split_ifs at hs with hholds
    cases hs
    exact .pin hholds
  | bwrite p b =>
    rw [step] at hs
    split_ifs at hs with hidle
    by_cases hlock : (c.buf b).lock = some p
    · rw [bwrite_eq hlock] at hs
      cases hs
      exact .write ⟨hidle, hlock⟩
    · rw [bwrite, if_neg hlock] at hs
      cases hs
  | brelse p b record =>
    rw [step] at hs
    split_ifs at hs with hidle
    rw [brelse] at hs
    split at hs <;> cases hs
    rename_i hlock
    exact .release ⟨hidle, hlock⟩

omit [DecidableEq P] in
theorem Linked.moveFront {k : Links Node} {l₁ l₂ : List Buf} (h : Linked k (l₁ ++ b :: l₂)) :
    Linked ((k.unlink (some b)).pushFront none (some b)) (b :: (l₁ ++ l₂)) := by
  have hcircle := h.1
  rw [List.map_append, List.map_cons] at hcircle
  have hnotin : some b ∉ none :: (l₁.map some ++ l₂.map some) := by
    have hnodup := (List.nodup_cons.mp hcircle.nodup).2
    have hb := (List.nodup_cons.mp ((List.perm_middle.nodup_iff).mp hnodup)).1
    simpa using hb
  refine ⟨?_, ?_⟩
  · rw [List.map_cons, List.map_append]
    exact hcircle.unlink.pushFront hnotin
  · intro b'
    have := h.2 b'
    simp only [List.mem_append, List.mem_cons] at this ⊢
    tauto

omit [DecidableEq P] in
theorem linked_init (disk : Nat → Nat → Block) : ∃ l, Linked (init (P := P) disk).links l := by
  have hfold : ∀ (bs l : List Buf) (k : Links Node), k.Circle none (l.map some) →
      (bs ++ l).Nodup → Links.Circle (bs.foldl (fun k b => k.pushFront none (some b)) k) none
        ((bs.reverse ++ l).map some) := by
    intro bs
    induction bs with
    | nil => exact fun l k hk _ => hk
    | cons b bs ih =>
      intro l k hk hnodup
      have hnodup' : (bs ++ b :: l).Nodup := (List.perm_middle.nodup_iff).mpr hnodup
      have hb : b ∉ l := fun hmem =>
        (List.nodup_cons.mp hnodup).1 (List.mem_append_right _ hmem)
      have hpush := hk.pushFront (b := some b) (by simpa using hb)
      rw [List.reverse_cons, List.append_assoc]
      exact ih (b :: l) _ hpush hnodup'
  have hempty : (⟨fun _ => none, fun _ => none⟩ : Links Node).Circle none (([] : List Buf).map some) :=
    ⟨⟨rfl, rfl⟩, List.nodup_singleton _⟩
  refine ⟨(List.finRange NBUF).reverse ++ [], hfold _ [] _ hempty ?_, ?_⟩
  · rw [List.append_nil]
    exact List.nodup_finRange _
  · intro b
    simp

variable {x : Entry P}

section

omit [DecidableEq P]

theorem Shape.refcnt_pos (h : c.Shape) (hb : c.uses p b) : 0 < (c.buf b).refcnt := by
  obtain ⟨u, hu, -, rfl⟩ := hb
  rw [h.refcnt]
  exact List.countP_pos_iff.mpr ⟨u, hu, by simp⟩

theorem not_fresh_of_refcnt (h : 0 < (c.buf b).refcnt) : ¬c.fresh b :=
  fun hfresh => by have := hfresh.2.1; omega

section

variable (hbuf : c'.buf = Function.update c.buf b x)
include hbuf

theorem carries_iff (hsame : x.dev = (c.buf b).dev ∧ x.blockno = (c.buf b).blockno) (b' : Buf)
    (dev blockno : Nat) :
    c'.carries b' dev blockno ↔ c.carries b' dev blockno := by
  rw [carries, carries, hbuf]
  by_cases hb : b' = b
  · subst b'
    rw [update_self, hsame.1, hsame.2]
  · rw [update_of_ne hb]

theorem fresh_of_ne {b' : Buf} (hb : b' ≠ b) : c'.fresh b' ↔ c.fresh b' := by
  rw [fresh, fresh, carries, carries, hbuf, update_of_ne hb]

theorem fresh_iff (hb : ¬c.fresh b) (hb' : ¬c'.fresh b) (b' : Buf) : c'.fresh b' ↔ c.fresh b' := by
  by_cases heq : b' = b
  · subst b'
    exact iff_of_false hb' hb
  · exact fresh_of_ne hbuf heq

end

theorem Shape.same (h : c.Shape) (hlinked : ∃ l, Linked c'.links l ∧ c.Ordered l)
    (hrefcnt : ∀ b, (c'.buf b).refcnt = c'.users.countP (·.buf = b))
    (hcarries : ∀ b dev blockno, c'.carries b dev blockno ↔ c.carries b dev blockno)
    (hfresh : ∀ b, c'.fresh b ↔ c.fresh b) (huser : ∀ u ∈ c'.users, u ∈ c.users) : c'.Shape := by
  refine ⟨?_, ?_, hrefcnt, ?_⟩
  · obtain ⟨l, hl, hordered⟩ := hlinked
    refine ⟨l, hl, hordered.imp fun {b b'} himp hb hzero => ?_⟩
    exact (hfresh b').mpr (himp ((hfresh b).mp hb) ((hcarries b' 0 0).mp hzero))
  · intro b b' dev blockno hb hb' hcb hcb'
    rw [hfresh] at hb hb'
    rw [hcarries] at hcb hcb'
    exact h.unique b b' dev blockno hb hb' hcb hcb'
  · exact fun u hu => (hcarries ..).mpr (h.block u (huser u hu))

theorem Shape.touch (h : c.Shape) (hb : c.uses p b) (hlinks : c'.links = c.links)
    (husers : c'.users = c.users) (hbuf : c'.buf = Function.update c.buf b x)
    (hsame : x.dev = (c.buf b).dev ∧ x.blockno = (c.buf b).blockno)
    (hrefcnt : x.refcnt = (c.buf b).refcnt) : c'.Shape := by
  have hcount : ∀ b', (c'.buf b').refcnt = (c.buf b').refcnt := by
    intro b'
    rw [hbuf]
    by_cases hb : b' = b
    · subst b'
      rw [update_self, hrefcnt]
    · rw [update_of_ne hb]
  have hpos := h.refcnt_pos hb
  refine h.same (hlinks ▸ h.linked) ?_ (carries_iff hbuf hsame) ?_ (husers ▸ fun u hu => hu)
  · exact fun b' => by rw [hcount, husers, h.refcnt]
  · refine fresh_iff hbuf (not_fresh_of_refcnt hpos) (not_fresh_of_refcnt ?_)
    rwa [hcount]

theorem Shape.mem_users (h : c.Shape) (hb : c.uses p b) :
    ⟨p, b, (c.buf b).dev, (c.buf b).blockno⟩ ∈ c.users := by
  obtain ⟨u, hu, rfl, rfl⟩ := hb
  rw [(h.block u hu).1, (h.block u hu).2]
  exact hu

end

section

variable (c p b)

theorem buf_hit : (c.hit p b).buf =
    Function.update c.buf b { c.buf b with refcnt := (c.buf b).refcnt + 1 } := rfl

theorem buf_drop : (c.drop p b).buf =
    Function.update c.buf b { c.buf b with refcnt := (c.buf b).refcnt - 1 } := rfl

theorem buf_recycle (dev blockno : Nat) : (c.recycle p b dev blockno).buf b =
    { c.buf b with dev := dev, blockno := blockno, valid := false, dirty := false, refcnt := 1 } :=
  update_self ..

theorem not_fresh_hit : ¬(c.hit p b).fresh b :=
  not_fresh_of_refcnt (by rw [buf_hit, update_self]; exact Nat.succ_pos _)

end

theorem not_fresh_drop (hvalid : (c.buf b).valid = true) : ¬(c.drop p b).fresh b := by
  intro hf
  have hinvalid := hf.2.2
  rw [buf_drop, update_self] at hinvalid
  exact nomatch hinvalid.symm.trans hvalid

theorem Shape.drop (h : c.Shape) (hb : c.uses p b) (hvalid : (c.buf b).valid = true) :
    (c.drop p b).Shape := by
  have hold : ¬c.fresh b := fun hf => nomatch hf.2.2.symm.trans hvalid
  have hbuf := c.buf_drop p b
  refine h.same ?_ ?_ (carries_iff hbuf ⟨rfl, rfl⟩) (fresh_iff hbuf hold (not_fresh_drop hvalid)) ?_
  · obtain ⟨l, hl, hordered⟩ := h.linked
    by_cases hzero : (c.buf b).refcnt - 1 = 0
    · obtain ⟨l₁, l₂, rfl⟩ := List.append_of_mem (hl.2 b)
      simp only [Bcache.drop, if_pos hzero]
      refine ⟨_, hl.moveFront, List.pairwise_cons.mpr ⟨fun _ _ hf => absurd hf hold, ?_⟩⟩
      exact hordered.sublist ((List.sublist_cons_self b l₂).append_left l₁)
    · simp only [Bcache.drop, if_neg hzero]
      exact ⟨l, hl, hordered⟩
  · intro b'
    change _ = (c.users.erase _).countP _
    rw [List.countP_erase]
    by_cases hb' : b' = b
    · subst b'
      rw [hbuf, update_self]
      simp [h.mem_users hb, h.refcnt]
    · rw [hbuf, update_of_ne hb', h.refcnt]
      simp [Ne.symm hb']
  · exact fun u hu => List.mem_of_mem_erase hu

omit [DecidableEq P] in
theorem First.only_fresh (hfirst : c.First b) (hl : Linked c.links l) (hordered : c.Ordered l)
    (hb : c.fresh b) {b' : Buf} (hb' : c.carries b' 0 0) : c.fresh b' := by
  obtain ⟨l₁, l₂, rfl, hnot⟩ := hfirst l hl
  rcases List.mem_append.mp (hl.2 b') with hmem | hmem
  · exact absurd (by rwa [hb.1.1, hb.1.2]) (hnot b' hmem)
  · rcases List.mem_cons.mp hmem with rfl | hmem
    · exact hb
    · exact (List.pairwise_cons.mp (List.pairwise_append.mp hordered).2.1).1 b' hmem hb hb'

omit [DecidableEq P] in
theorem First.pairwise (hfirst : c.First b) (hl : Linked c.links l) :
    l.Pairwise fun b₁ b₂ => b₂ = b → ¬c.carries b₁ (c.buf b).dev (c.buf b).blockno := by
  have hnodup : l.Nodup := List.Nodup.of_map _ (List.nodup_cons.mp hl.1.nodup).2
  obtain ⟨l₁, l₂, rfl, hnot⟩ := hfirst l hl
  obtain ⟨hnodup₁, hnodup₂, hdisjoint⟩ := List.nodup_append.mp hnodup
  refine List.pairwise_append.mpr ⟨?_, List.pairwise_cons.mpr ⟨?_, ?_⟩, ?_⟩
  · refine hnodup₁.imp_of_mem fun _ hmem _ heq => ?_
    exact absurd heq (hdisjoint _ hmem b List.mem_cons_self)
  · exact fun b₂ hmem heq => absurd (heq ▸ hmem) (List.nodup_cons.mp hnodup₂).1
  · refine (List.nodup_cons.mp hnodup₂).2.imp_of_mem fun _ hmem _ heq => ?_
    exact absurd (heq ▸ hmem) (List.nodup_cons.mp hnodup₂).1
  · exact fun b₁ hmem _ _ _ => hnot b₁ hmem

theorem Shape.hit (h : c.Shape) (hfirst : c.First b) : (c.hit p b).Shape := by
  obtain ⟨l, hl, hordered⟩ := h.linked
  have hbuf := c.buf_hit p b
  have hcarries := carries_iff hbuf ⟨rfl, rfl⟩
  have hnew := c.not_fresh_hit p b
  refine ⟨⟨l, hl, ?_⟩, ?_, ?_, ?_⟩
  · refine (hordered.and (hfirst.pairwise hl)).imp ?_
    intro b₁ b₂ himp hfresh hzero
    have hne₁ : b₁ ≠ b := fun heq => hnew (heq ▸ hfresh)
    have hfresh₁ := (fresh_of_ne hbuf hne₁).mp hfresh
    have hzero₂ := (hcarries b₂ 0 0).mp hzero
    have hne₂ : b₂ ≠ b := by
      rintro rfl
      refine himp.2 rfl ?_
      rw [hzero₂.1, hzero₂.2]
      exact hfresh₁.1
    exact (fresh_of_ne hbuf hne₂).mpr (himp.1 hfresh₁ hzero₂)
  · -- Another buffer in use for the same block was in use before, and so was `b`.
    have hother : ∀ b' dev blockno, b' ≠ b → ¬(c.hit p b).fresh b' → c.carries b' dev blockno →
        ¬c.carries b dev blockno := by
      intro b' dev blockno hne hused hb' hb
      rw [fresh_of_ne hbuf hne] at hused
      by_cases hf : c.fresh b
      · obtain ⟨rfl, rfl⟩ : dev = 0 ∧ blockno = 0 :=
          ⟨hb.1.symm.trans hf.1.1, hb.2.symm.trans hf.1.2⟩
        exact hused (hfirst.only_fresh hl hordered hf hb')
      · exact hne (h.unique b' b dev blockno hused hf hb' hb)
    intro b₁ b₂ dev blockno hb₁ hb₂ hc₁ hc₂
    rw [hcarries] at hc₁ hc₂
    by_cases heq₁ : b₁ = b
    · by_cases heq₂ : b₂ = b
      · rw [heq₁, heq₂]
      · exact absurd (heq₁ ▸ hc₁) (hother b₂ dev blockno heq₂ hb₂ hc₂)
    · by_cases heq₂ : b₂ = b
      · exact absurd (heq₂ ▸ hc₂) (hother b₁ dev blockno heq₁ hb₁ hc₁)
      · rw [fresh_of_ne hbuf heq₁] at hb₁
        rw [fresh_of_ne hbuf heq₂] at hb₂
        exact h.unique b₁ b₂ dev blockno hb₁ hb₂ hc₁ hc₂
  · intro b'
    change _ = (_ :: c.users).countP _
    rw [List.countP_cons]
    by_cases hb : b' = b
    · subst b'
      rw [hbuf, update_self]
      simp [h.refcnt]
    · rw [hbuf, update_of_ne hb, h.refcnt]
      simp [Ne.symm hb]
  · intro u hu
    rw [hcarries]
    rcases List.mem_cons.mp hu with rfl | hu
    · exact ⟨rfl, rfl⟩
    · exact h.block u hu

theorem Shape.recycle (h : c.Shape) (hmissing : ∀ b', ¬c.carries b' dev blockno)
    (hfree : (c.buf b).refcnt = 0) : (c.recycle p b dev blockno).Shape := by
  have hnone : ∀ u ∈ c.users, u.buf ≠ b := by
    rintro u hu rfl
    have := h.refcnt_pos (p := u.proc) ⟨u, hu, rfl, rfl⟩
    omega
  have hself := c.buf_recycle p b dev blockno
  have hother : ∀ b', b' ≠ b → (c.recycle p b dev blockno).buf b' = c.buf b' :=
    fun b' hb => update_of_ne hb ..
  have hcarries : ∀ {b' dev' blockno'}, b' ≠ b →
      (c.recycle p b dev blockno).carries b' dev' blockno' → c.carries b' dev' blockno' := by
    intro b' dev' blockno' hb hc
    rwa [carries, hother b' hb] at hc
  have hfresh : ∀ {b'}, b' ≠ b → ((c.recycle p b dev blockno).fresh b' ↔ c.fresh b') :=
    fun hb => fresh_of_ne rfl hb
  have hnew : ¬(c.recycle p b dev blockno).fresh b :=
    not_fresh_of_refcnt (by rw [hself]; exact Nat.one_pos)
  -- No other buffer carries the block that `b` carries now.
  have hdiffer : ∀ {b' dev' blockno'}, b' ≠ b →
      (c.recycle p b dev blockno).carries b dev' blockno' → ¬c.carries b' dev' blockno' := by
    rintro b' dev' blockno' hb ⟨hdev, hblockno⟩ hc
    rw [hself] at hdev hblockno
    obtain rfl : dev = dev' := hdev
    obtain rfl : blockno = blockno' := hblockno
    exact hmissing b' hc
  refine ⟨?_, ?_, ?_, ?_⟩
  · obtain ⟨l, hl, hordered⟩ := h.linked
    refine ⟨l, hl, hordered.imp fun {b₁ b₂} himp hf hzero => ?_⟩
    have hne₁ : b₁ ≠ b := fun heq => hnew (heq ▸ hf)
    rw [hfresh hne₁] at hf
    by_cases hne₂ : b₂ = b
    · subst b₂
      exact absurd hf.1 (hdiffer hne₁ hzero)
    · exact (hfresh hne₂).mpr (himp hf (hcarries hne₂ hzero))
  · intro b₁ b₂ dev' blockno' hb₁ hb₂ hc₁ hc₂
    by_cases heq₁ : b₁ = b
    · by_cases heq₂ : b₂ = b
      · rw [heq₁, heq₂]
      · exact absurd (hcarries heq₂ hc₂) (hdiffer heq₂ (heq₁ ▸ hc₁))
    · by_cases heq₂ : b₂ = b
      · exact absurd (hcarries heq₁ hc₁) (hdiffer heq₁ (heq₂ ▸ hc₂))
      · exact h.unique b₁ b₂ dev' blockno' (mt (hfresh heq₁).mpr hb₁) (mt (hfresh heq₂).mpr hb₂)
          (hcarries heq₁ hc₁) (hcarries heq₂ hc₂)
  · intro b'
    change _ = (_ :: c.users).countP _
    rw [List.countP_cons]
    by_cases hb : b' = b
    · subst b'
      have hzero : c.users.countP (·.buf = b) = 0 := by
        rw [← h.refcnt, hfree]
      rw [hself, hzero]
      simp
    · rw [hother b' hb, h.refcnt]
      simp [Ne.symm hb]
  · intro u hu
    rcases List.mem_cons.mp hu with rfl | hu
    · rw [carries, hself]
      exact ⟨rfl, rfl⟩
    · rw [carries, hother u.buf (hnone u hu)]
      exact h.block u hu

theorem Owned.touch (h : c.Owned) {pc : Pc} (hbuf : c'.buf = Function.update c.buf b x)
    (hpc : c'.pc = Function.update c.pc p pc)
    (huses : ∀ q b', c.uses q b' → c'.uses q b' ∨ q = p ∧ b' = b)
    (hload : ∀ b', c.pc p = .load b' → b' = b)
    (hothers : ∀ q, q ≠ p → (x.lock = some q ↔ (c.buf b).lock = some q))
    (hvalid : ∀ q, q ≠ p → c.uses q b → (c.buf b).valid = true → x.valid = true)
    (hgo : ∀ b', pc.buf = some b' → b' = b ∧ c'.uses p b) (hloads : pc = .load b → x.lock = some p)
    (hdrops : pc = .drop b → x.lock ≠ some p ∧ x.valid = true)
    (hlock : x.lock = some p → c'.uses p b ∧ (pc ≠ .load b → x.valid = true))
    (hpinned : x.dirty = true → x.valid = true) : c'.Owned := by
  have hself : c'.buf b = x := by rw [hbuf, update_self]
  have hother : ∀ b', b' ≠ b → c'.buf b' = c.buf b' := by
    intro b' hb
    rw [hbuf, update_of_ne hb]
  have hpcself : c'.pc p = pc := by rw [hpc, update_self]
  have hpcother : ∀ q, q ≠ p → c'.pc q = c.pc q := by
    intro q hq
    rw [hpc, update_of_ne hq]
  have hkeep : ∀ q b', ¬(q = p ∧ b' = b) → c.uses q b' → c'.uses q b' :=
    fun q b' hne hq => (huses q b' hq).resolve_right hne
  refine ⟨?_, ?_, ?_, ?_, ?_, ?_⟩
  · intro q b' hq
    by_cases hqp : q = p
    · subst q
      rw [hpcself] at hq
      obtain ⟨rfl, huse⟩ := hgo b' hq
      exact huse
    · rw [hpcother q hqp] at hq
      exact hkeep q b' (fun heq => hqp heq.1) (h.works q b' hq)
  · intro q b' hq
    by_cases hb : b' = b
    · subst b'
      rw [hself] at hq
      by_cases hqp : q = p
      · subst q
        exact (hlock hq).1
      · exact hkeep q b (fun heq => hqp heq.1) (h.locks q b ((hothers q hqp).mp hq))
    · rw [hother b' hb] at hq
      exact hkeep q b' (fun heq => hb heq.2) (h.locks q b' hq)
  · intro q b' hq
    by_cases hqp : q = p
    · subst q
      rw [hpcself] at hq
      obtain ⟨rfl, -⟩ := hgo b' (by rw [hq]; rfl)
      rw [hself]
      exact hloads hq
    · rw [hpcother q hqp] at hq
      by_cases hb : b' = b
      · subst b'
        rw [hself]
        exact (hothers q hqp).mpr (h.loads q b hq)
      · rw [hother b' hb]
        exact h.loads q b' hq
  · intro q b' hq
    by_cases hqp : q = p
    · subst q
      rw [hpcself] at hq
      obtain ⟨rfl, -⟩ := hgo b' (by rw [hq]; rfl)
      rw [hself]
      exact hdrops hq
    · rw [hpcother q hqp] at hq
      by_cases hb : b' = b
      · subst b'
        rw [hself]
        have hold := h.drops q b hq
        refine ⟨fun heq => hold.1 ((hothers q hqp).mp heq), hvalid q hqp (h.works q b ?_) hold.2⟩
        rw [hq]
        rfl
      · rw [hother b' hb]
        exact h.drops q b' hq
  · intro q b' hq hne
    by_cases hb : b' = b
    · subst b'
      rw [hself] at hq ⊢
      by_cases hqp : q = p
      · subst q
        exact (hlock hq).2 (hpcself ▸ hne)
      · rw [hpcother q hqp] at hne
        have hq' := (hothers q hqp).mp hq
        exact hvalid q hqp (h.locks q b hq') (h.loaded q b hq' hne)
    · rw [hother b' hb] at hq ⊢
      refine h.loaded q b' hq ?_
      by_cases hqp : q = p
      · subst q
        exact fun heq => hb (hload b' heq)
      · rwa [hpcother q hqp] at hne
  · intro b' hdirty
    by_cases hb : b' = b
    · subst b'
      rw [hself] at hdirty ⊢
      exact hpinned hdirty
    · rw [hother b' hb] at hdirty ⊢
      exact h.pinned b' hdirty

omit [DecidableEq P] in
theorem Inv.lock_of_refcnt (h : c.Inv) (hfree : (c.buf b).refcnt = 0) : (c.buf b).lock = none := by
  cases hlock : (c.buf b).lock with
  | none => rfl
  | some q =>
    have := h.refcnt_pos (h.locks q b hlock)
    omega

omit [DecidableEq P] in
theorem Inv.init (disk : Nat → Nat → Block) : (init disk : Bcache P).Inv where
  linked := by
    obtain ⟨l, hl⟩ := linked_init (P := P) disk
    exact ⟨l, hl, List.pairwise_of_forall fun _ _ _ _ => ⟨⟨rfl, rfl⟩, rfl, rfl⟩⟩
  unique _ _ _ _ hb := absurd ⟨⟨rfl, rfl⟩, rfl, rfl⟩ hb
  refcnt _ := rfl
  block _ hu := nomatch hu
  works _ _ hb := nomatch hb
  locks _ _ hlock := nomatch hlock
  loads _ _ hpc := nomatch hpc
  drops _ _ hpc := nomatch hpc
  loaded _ _ hlock := nomatch hlock
  pinned _ hdirty := nomatch hdirty

omit [DecidableEq P] in
theorem uses_cons {u : User P} {q : P} {b' : Buf} (husers : c'.users = u :: c.users)
    (h : c.uses q b') : c'.uses q b' := by
  obtain ⟨v, hv, hproc, hbuf⟩ := h
  exact ⟨v, husers ▸ List.mem_cons_of_mem _ hv, hproc, hbuf⟩

section

variable (h : c.Inv)
include h

theorem Inv.hit (hidle : c.pc p = .idle) (hfirst : c.First b) : (c.hit p b).Inv := by
  have huse : (c.hit p b).uses p b := ⟨_, List.mem_cons_self, rfl, rfl⟩
  refine ⟨h.toShape.hit hfirst, h.toOwned.touch (b := b) (p := p) rfl rfl ?_ ?_ ?_ ?_ ?_ ?_ ?_ ?_ ?_⟩
  · exact fun q b' hq => .inl (uses_cons rfl hq)
  · exact fun b' hload => nomatch hidle.symm.trans hload
  · exact fun q _ => Iff.rfl
  · exact fun q _ _ hvalid => hvalid
  · exact fun b' hb => ⟨(Option.some.inj hb).symm, huse⟩
  · nofun
  · nofun
  · exact fun hlock => ⟨huse, fun _ => h.loaded p b hlock (by rw [hidle]; nofun)⟩
  · exact h.pinned b

theorem Inv.recycle (hidle : c.pc p = .idle) (hmissing : ∀ b', ¬c.carries b' dev blockno)
    (hfree : (c.buf b).refcnt = 0) :
    (c.recycle p b dev blockno).Inv := by
  have huse : (c.recycle p b dev blockno).uses p b := ⟨_, List.mem_cons_self, rfl, rfl⟩
  have hlock := h.lock_of_refcnt hfree
  refine ⟨h.toShape.recycle hmissing hfree,
    h.toOwned.touch (b := b) (p := p) rfl rfl ?_ ?_ ?_ ?_ ?_ ?_ ?_ ?_ ?_⟩
  · exact fun q b' hq => .inl (uses_cons rfl hq)
  · exact fun b' hload => nomatch hidle.symm.trans hload
  · exact fun q _ => Iff.rfl
  · intro q _ hq
    have := h.refcnt_pos hq
    omega
  · exact fun b' hb => ⟨(Option.some.inj hb).symm, huse⟩
  · nofun
  · nofun
  · exact fun hp => nomatch hlock.symm.trans hp
  · nofun

theorem Inv.drop (hdrop : c.pc p = .drop b) : (c.drop p b).Inv := by
  have huse : c.uses p b := h.works p b (by rw [hdrop]; rfl)
  refine ⟨h.toShape.drop huse (h.drops p b hdrop).2,
    h.toOwned.touch (b := b) (p := p) rfl rfl ?_ ?_ ?_ ?_ ?_ ?_ ?_ ?_ ?_⟩
  · rintro q b' ⟨u, hu, rfl, rfl⟩
    by_cases heq : u = ⟨p, b, (c.buf b).dev, (c.buf b).blockno⟩
    · exact .inr (by rw [heq]; exact ⟨rfl, rfl⟩)
    · exact .inl ⟨u, (List.mem_erase_of_ne heq).mpr hu, rfl, rfl⟩
  · exact fun b' hload => nomatch hdrop.symm.trans hload
  · exact fun q _ => Iff.rfl
  · exact fun q _ _ hvalid => hvalid
  · nofun
  · nofun
  · nofun
  · exact fun hlock => absurd hlock (h.drops p b hdrop).1
  · exact h.pinned b

theorem Inv.work {pc : Pc} (huse : c.uses p b)
    (hlock : (c.buf b).lock = none ∨ (c.buf b).lock = some p) (hlinks : c'.links = c.links)
    (husers : c'.users = c.users) (hbuf : c'.buf = Function.update c.buf b x)
    (hpc : c'.pc = Function.update c.pc p pc)
    (hsame : x.dev = (c.buf b).dev ∧ x.blockno = (c.buf b).blockno ∧ x.refcnt = (c.buf b).refcnt)
    (hkeep : (c.buf b).valid = true → x.valid = true) (hload : ∀ b', c.pc p = .load b' → b' = b)
    (hgo : ∀ b', pc.buf = some b' → b' = b)
    (hlock' : x.lock = some p ∧ pc ≠ .drop b ∧ (pc ≠ .load b → x.valid = true) ∨
      x.lock = none ∧ pc ≠ .load b ∧ x.valid = true)
    (hpinned : x.dirty = true → x.valid = true) : c'.Inv := by
  have huses : c'.uses = c.uses := by
    unfold uses
    rw [husers]
  have hothers : ∀ q, q ≠ p → ¬(c.buf b).lock = some q := by
    rintro q hq hq'
    rcases hlock with hlock | hlock
    · exact nomatch hlock.symm.trans hq'
    · exact hq (Option.some.inj (hq'.symm.trans hlock))
  refine ⟨h.toShape.touch huse hlinks husers hbuf ⟨hsame.1, hsame.2.1⟩ hsame.2.2,
    h.toOwned.touch hbuf hpc ?_ hload ?_ ?_ ?_ ?_ ?_ ?_ hpinned⟩
  · exact fun q b' hq => .inl (huses ▸ hq)
  · intro q hq
    refine iff_of_false ?_ (hothers q hq)
    rcases hlock' with ⟨hx, -⟩ | ⟨hx, -⟩
    · exact fun heq => hq (Option.some.inj (heq.symm.trans hx))
    · exact fun heq => nomatch hx.symm.trans heq
  · exact fun _ _ _ hvalid => hkeep hvalid
  · exact fun b' hb => ⟨hgo b' hb, huses ▸ huse⟩
  · intro heq
    rcases hlock' with ⟨hx, -⟩ | ⟨-, hne, -⟩
    · exact hx
    · exact absurd heq hne
  · intro heq
    rcases hlock' with ⟨-, hne, -⟩ | ⟨hx, -, hvalid⟩
    · exact absurd heq hne
    · exact ⟨fun heq => (nomatch hx.symm.trans heq), hvalid⟩
  · intro heq
    rcases hlock' with ⟨-, -, hvalid⟩ | ⟨hx, -⟩
    · exact ⟨huses ▸ huse, hvalid⟩
    · exact nomatch hx.symm.trans heq

theorem Inv.edit (hholds : c.holds p b) (hlinks : c'.links = c.links) (husers : c'.users = c.users)
    (hbuf : c'.buf = Function.update c.buf b x) (hpc : c'.pc = c.pc)
    (hsame : x.dev = (c.buf b).dev ∧ x.blockno = (c.buf b).blockno ∧ x.refcnt = (c.buf b).refcnt)
    (hlock : x.lock = (c.buf b).lock) (hvalid : x.valid = true) : c'.Inv := by
  obtain ⟨hidle, hp⟩ := hholds
  have hpc' : c'.pc = Function.update c.pc p .idle := by
    rw [hpc, ← hidle, update_eq_self]
  refine h.work (h.locks p b hp) (.inr hp) hlinks husers hbuf hpc' hsame (fun _ => hvalid) ?_ nofun
    (.inl ⟨hlock.trans hp, nofun, fun _ => hvalid⟩) (fun _ => hvalid)
  exact fun b' hload => nomatch hidle.symm.trans hload

omit [DecidableEq P] in
theorem Inv.valid_of_holds (hholds : c.holds p b) : (c.buf b).valid = true :=
  h.loaded p b hholds.2 (by rw [hholds.1]; nofun)

theorem Inv.move (hm : Move c e c') : c'.Inv := by
  cases hm with
  | hit hidle hfirst => exact h.hit hidle hfirst
  | recycle hidle hmissing hfree _ => exact h.recycle hidle hmissing hfree
  | @lock p b hwait hfree =>
    refine h.work (h.works p b (by rw [hwait]; rfl)) (.inl hfree) rfl rfl rfl rfl ⟨rfl, rfl, rfl⟩
      id ?_ ?_ (.inl ⟨rfl, nofun, fun hne => absurd rfl hne⟩) (h.pinned b)
    · exact fun b' hload => nomatch hwait.symm.trans hload
    · exact fun b' hb => (Option.some.inj hb).symm
  | @found p b hload hvalid =>
    refine h.work (x := c.buf b) (h.works p b (by rw [hload]; rfl)) (.inr (h.loads p b hload)) rfl
      rfl (update_eq_self ..).symm rfl ⟨rfl, rfl, rfl⟩ id ?_ nofun
      (.inl ⟨h.loads p b hload, nofun, fun _ => hvalid⟩) (fun _ => hvalid)
    exact fun b' hb => (Pc.load.inj (hload.symm.trans hb)).symm
  | @read p b hload hvalid =>
    refine h.work (h.works p b (by rw [hload]; rfl)) (.inr (h.loads p b hload)) rfl rfl rfl rfl
      ⟨rfl, rfl, rfl⟩ (fun _ => rfl) ?_ nofun (.inl ⟨h.loads p b hload, nofun, fun _ => rfl⟩)
      (fun _ => rfl)
    exact fun b' hb => (Pc.load.inj (hload.symm.trans hb)).symm
  | drop hdrop => exact h.drop hdrop
  | modify hholds =>
    exact h.edit hholds rfl rfl rfl rfl ⟨rfl, rfl, rfl⟩ rfl (h.valid_of_holds hholds)
  | pin hholds => exact h.edit hholds rfl rfl rfl rfl ⟨rfl, rfl, rfl⟩ rfl (h.valid_of_holds hholds)
  | write hholds => exact h.edit hholds rfl rfl rfl rfl ⟨rfl, rfl, rfl⟩ rfl rfl
  | @release p b record hholds =>
    refine h.work (h.locks p b hholds.2) (.inr hholds.2) rfl rfl rfl rfl ⟨rfl, rfl, rfl⟩ id
      ?_ ?_ (.inr ⟨rfl, nofun, h.valid_of_holds hholds⟩) (h.pinned b)
    · exact fun b' hload => nomatch hholds.1.symm.trans hload
    · exact fun b' hb => (Option.some.inj hb).symm

theorem Inv.step (hs : c.step e = .next c') : c'.Inv := h.move (.of_step h hs)

end

theorem Inv.of_reach {ok : Bcache P → Event P → Prop} {disk : Nat → Nat → Block}
    (h : Reach Bcache.step ok (Bcache.init disk) c) : c.Inv :=
  h.invariant (.init disk) fun _ _ _ hi _ hs => hi.step hs

theorem Move.carries (hm : Move c e c') (hb : 0 < (c.buf b).refcnt ∨ (c.buf b).dirty = true) :
    c'.carries b (c.buf b).dev (c.buf b).blockno := by
  cases hm with
  | @recycle p b' _ _ _ _ hfree hclean =>
    have hne : b ≠ b' := by
      rintro rfl
      rcases hb with hb | hb
      · omega
      · exact nomatch hclean.symm.trans hb
    refine ⟨?_, ?_⟩
    · exact congrArg Entry.dev (update_of_ne hne ..)
    · exact congrArg Entry.blockno (update_of_ne hne ..)
  | found => exact ⟨rfl, rfl⟩
  | hit | lock | read | drop | modify | pin | write | release =>
    refine (carries_iff rfl ?_ b _ _).mpr ⟨rfl, rfl⟩
    exact ⟨rfl, rfl⟩

theorem iderw_ne_hang (c : Bcache P) (p : P) (b : Buf) : c.iderw p b ≠ .panic .hang := by
  simp only [iderw]
  split
  next => nofun
  next =>
    split
    next => nofun
    next => split <;> nofun

theorem step_ne_hang (h : c.Inv) (e : Event P) : c.step e ≠ .panic .hang := by
  cases e with
  | bread p dev blockno =>
    have hget := bget_ne_hang h.toShape p dev blockno
    rw [step]
    split
    next =>
      cases hb : c.bget p dev blockno with
      | next r => nofun
      | blocked => nofun
      | panic e => exact fun heq => hget (hb.trans (by rw [Outcome.panic.inj heq]))
    next => nofun
  | run p =>
    rw [step, run]
    split
    next => nofun
    next => split <;> nofun
    next =>
      split
      next => nofun
      next => exact iderw_ne_hang _ _ _
    next => nofun
  | modify p b data | pin p b =>
    rw [step]
    split <;> nofun
  | bwrite p b =>
    rw [step]
    split
    next =>
      rw [bwrite]
      split
      next => exact iderw_ne_hang _ _ _
      next => nofun
    next => nofun
  | brelse p b record =>
    rw [step]
    split
    next =>
      rw [brelse]
      split <;> nofun
    next => nofun

/-- In every run of the buffer cache the links form one circle through all buffers, a block of a
device other than 0 has one buffer, which all its users share, and a buffer that is referenced or
dirty keeps its block. -/
theorem bcache_structure (disk : Nat → Nat → Block)
    (h : Reach step (fun _ _ => True) (init disk) c) :
    (∃ l : List Buf, c.links.Circle none (l.map some) ∧ l.Nodup ∧ ∀ b, b ∈ l) ∧
      (∀ node, c.links.prev (c.links.next node) = node ∧ c.links.next (c.links.prev node) = node) ∧
      (∀ b b' dev blockno, dev ≠ 0 → c.carries b dev blockno → c.carries b' dev blockno → b = b') ∧
      (∀ u ∈ c.users, 0 < (c.buf u.buf).refcnt ∧ c.carries u.buf u.dev u.blockno) ∧
      (∀ u ∈ c.users, ∀ v ∈ c.users, u.dev ≠ 0 → u.dev = v.dev → u.blockno = v.blockno →
        u.buf = v.buf) ∧
      ∀ e, step c e ≠ .panic .hang ∧ ∀ c', step c e = .next c' → ∀ b,
        0 < (c.buf b).refcnt ∨ (c.buf b).dirty = true →
          c'.carries b (c.buf b).dev (c.buf b).blockno := by
  have hinv := Inv.of_reach h
  obtain ⟨l, ⟨hcircle, hall⟩, -⟩ := hinv.linked
  have hunique : ∀ b b' dev blockno, dev ≠ 0 → c.carries b dev blockno → c.carries b' dev blockno →
      b = b' := by
    intro b b' dev blockno hdev hb hb'
    refine hinv.unique b b' dev blockno ?_ ?_ hb hb'
    · exact fun hf => hdev (hb.1.symm.trans hf.1.1)
    · exact fun hf => hdev (hb'.1.symm.trans hf.1.1)
  have hnode : ∀ node : Node, node ∈ none :: l.map some := by
    intro node
    cases node with
    | none => exact List.mem_cons_self
    | some b => exact List.mem_cons_of_mem _ (List.mem_map_of_mem (hall b))
  refine ⟨⟨l, hcircle, ?_, hall⟩, ?_, hunique, ?_, ?_, ?_⟩
  · exact List.Nodup.of_map _ (List.nodup_cons.mp hcircle.nodup).2
  · exact fun node => ⟨hcircle.prev_next (hnode node), hcircle.next_prev (hnode node)⟩
  · exact fun u hu => ⟨hinv.refcnt_pos (p := u.proc) ⟨u, hu, rfl, rfl⟩, hinv.block u hu⟩
  · intro u hu v hv hdev heq hblock
    have hv' := hinv.block v hv
    rw [← heq, ← hblock] at hv'
    exact hunique u.buf v.buf u.dev u.blockno hdev (hinv.block u hu) hv'
  · exact fun e => ⟨step_ne_hang hinv e, fun c' hs b hb => (Move.of_step hinv hs).carries hb⟩

/-- The events of two processes that share the buffer of block 7 until one of them goes on with
block 8 -/
def sharedEvents : List (Event Bool) :=
  [.bread false 1 7, .run false, .run false, .bread true 1 7, .brelse false 0 true, .run false,
    .run true, .bread false 1 8]

theorem bcache_structure_shared :
    ∃ c : Bcache Bool, Reach step (fun _ _ => True) (init fun _ _ => Bytes.zero) c ∧
      c.users = [⟨false, 1, 1, 8⟩, ⟨true, 0, 1, 7⟩] ∧ c.pc true = .load 0 ∧
      (∀ b, c.carries b 1 7 → b = 0) ∧
      ∀ e c', step c e = .next c' → c'.carries 0 1 7 ∧ c'.carries 1 1 8 := by
  obtain ⟨c, hrun, husers, hpc⟩ := Outcome.exists_of_holds
    (r := runEvents step (init (P := Bool) fun _ _ => Bytes.zero) sharedEvents)
    (Q := fun c => c.users = [⟨false, 1, 1, 8⟩, ⟨true, 0, 1, 7⟩] ∧ c.pc true = .load 0)
    (by decide +kernel)
  have hreach : Reach step (fun _ _ => True) (init fun _ _ => Bytes.zero) c :=
    .of_runEvents .init _ (Along.of_forall (fun _ _ => trivial) _ _) hrun
  obtain ⟨-, -, hunique, huser, -, hstep⟩ := bcache_structure _ hreach
  obtain ⟨hpos₀, hdev₀, hblock₀⟩ := huser ⟨true, 0, 1, 7⟩ (by simp [husers])
  obtain ⟨hpos₁, hdev₁, hblock₁⟩ := huser ⟨false, 1, 1, 8⟩ (by simp [husers])
  refine ⟨c, hreach, husers, hpc, ?_, ?_⟩
  · exact fun b hb => hunique b 0 1 7 (by decide) hb ⟨hdev₀, hblock₀⟩
  · intro e c' hs
    have h₀ := (hstep e).2 c' hs 0 (.inl hpos₀)
    have h₁ := (hstep e).2 c' hs 1 (.inl hpos₁)
    rw [hdev₀, hblock₀] at h₀
    rw [hdev₁, hblock₁] at h₁
    exact ⟨h₀, h₁⟩

end Xv6.Bcache
