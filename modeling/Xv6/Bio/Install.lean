import Xv6.Bio.Commit
import Xv6.Bio.Settled

/-!
# Commits and the buffer cache

While a process commits, the blocks that it has copied to the log are settled: no one else can
release changed data for them, since `log_write` stops outside of an operation and `bwrite` is left
to the log.  So the data that `install_trans` brings home are those last released.
-/

namespace Xv6

open Function (update_of_ne update_self)

namespace Bio

/-- Block of the log for an entry of `lh` -/
def Log.slot (l : Log) (i : Nat) : Nat := l.start + i + 1

def Log.home (l : Log) (i : Nat) : Nat := l.lh.getD i 0

def Log.inArea (l : Log) (blockno : Nat) : Prop := l.start ≤ blockno ∧ blockno < l.start + l.size

instance (l : Log) (blockno : Nat) : Decidable (l.inArea blockno) :=
  inferInstanceAs (Decidable (_ ∧ _))

/-- The blocks that a commit deals with -/
def Log.guarded (l : Log) (blockno : Nat) : Prop := blockno ∈ l.lh ∨ l.inArea blockno

/-- `lh` fits into the log and has no block of the log itself. -/
structure Log.Proper (l : Log) : Prop where
  outside : ∀ blockno ∈ l.lh, ¬l.inArea blockno
  room : l.lh.length ≤ l.size - 1

section

variable {l : Log} {i j : Nat}

theorem Log.home_mem (hi : i < l.lh.length) : l.home i ∈ l.lh := by
  rw [home, List.getD_eq_getElem?_getD, List.getElem?_eq_getElem hi]
  exact List.getElem_mem hi

theorem Log.Proper.slot_inArea (h : l.Proper) (hi : i < l.lh.length) : l.inArea (l.slot i) := by
  have := h.room
  simp only [inArea, slot]
  omega

theorem Log.Proper.home_ne_slot (h : l.Proper) (hi : i < l.lh.length) (hj : j < l.lh.length) :
    l.home i ≠ l.slot j :=
  fun heq => h.outside _ (home_mem hi) (heq ▸ h.slot_inArea hj)

theorem Log.slot_ne (h : i ≠ j) : l.slot i ≠ l.slot j := by
  simp only [slot]
  omega

end

open Bcache

variable {P : Type} {c c' : Bcache P} {l : Log} {p : P}

/-- The first entries of the log are settled and have the data last released for their blocks. -/
def Copied (c : Bcache P) (l : Log) (p : P) (n : Nat) : Prop :=
  ∀ i, i < n → c.Settled p l.dev (l.slot i) ∧ c.Settled p l.dev (l.home i) ∧
    c.released l.dev (l.slot i) = c.released l.dev (l.home i)

/-- How far a commit has come -/
def At (c : Bcache P) (l : Log) (p : P) : Stage → Prop
  | .logTo tail => tail < l.lh.length ∧ Copied c l p tail
  | .logFrom tail tobuf =>
    (tail < l.lh.length ∧ Copied c l p tail) ∧ c.Clean p tobuf l.dev (l.slot tail)
  | .logCopy tail tobuf frombuf =>
    (tail < l.lh.length ∧ Copied c l p tail) ∧ c.Clean p tobuf l.dev (l.slot tail) ∧
      c.Clean p frombuf l.dev (l.home tail)
  | .logWrite tail tobuf frombuf =>
    (tail < l.lh.length ∧ Copied c l p tail) ∧ c.Settled p l.dev (l.home tail) ∧
      c.Filled p tobuf l.dev (l.slot tail) (c.released l.dev (l.home tail)) false ∧
      c.Clean p frombuf l.dev (l.home tail)
  | .logFromDone tail tobuf frombuf =>
    (tail < l.lh.length ∧ Copied c l p tail) ∧ c.Settled p l.dev (l.home tail) ∧
      c.Filled p tobuf l.dev (l.slot tail) (c.released l.dev (l.home tail)) true ∧
      c.Clean p frombuf l.dev (l.home tail)
  | .logToDone tail tobuf =>
    (tail < l.lh.length ∧ Copied c l p tail) ∧ c.Settled p l.dev (l.home tail) ∧
      c.Filled p tobuf l.dev (l.slot tail) (c.released l.dev (l.home tail)) true
  | .headRead last => (last = false → 0 < l.lh.length) ∧ Copied c l p l.lh.length
  | .headSet last buf =>
    ((last = false → 0 < l.lh.length) ∧ Copied c l p l.lh.length) ∧ c.Clean p buf l.dev l.start
  | .headWrite last buf =>
    ((last = false → 0 < l.lh.length) ∧ Copied c l p l.lh.length) ∧
      ∃ data, c.Filled p buf l.dev l.start data false
  | .headDone last buf =>
    ((last = false → 0 < l.lh.length) ∧ Copied c l p l.lh.length) ∧
      ∃ data, c.Filled p buf l.dev l.start data true
  | .installLog tail => tail < l.lh.length ∧ Copied c l p l.lh.length
  | .installHome tail lbuf =>
    (tail < l.lh.length ∧ Copied c l p l.lh.length) ∧ c.Clean p lbuf l.dev (l.slot tail)
  | .installCopy tail lbuf dbuf =>
    (tail < l.lh.length ∧ Copied c l p l.lh.length) ∧ c.Clean p lbuf l.dev (l.slot tail) ∧
      c.Clean p dbuf l.dev (l.home tail)
  | .installWrite tail lbuf dbuf =>
    (tail < l.lh.length ∧ Copied c l p l.lh.length) ∧ c.Clean p lbuf l.dev (l.slot tail) ∧
      c.Filled p dbuf l.dev (l.home tail) (c.released l.dev (l.home tail)) false
  | .installLogDone tail lbuf dbuf =>
    (tail < l.lh.length ∧ Copied c l p l.lh.length) ∧ c.Clean p lbuf l.dev (l.slot tail) ∧
      c.Filled p dbuf l.dev (l.home tail) (c.released l.dev (l.home tail)) true
  | .installHomeDone tail dbuf =>
    (tail < l.lh.length ∧ Copied c l p l.lh.length) ∧
      c.Filled p dbuf l.dev (l.home tail) (c.released l.dev (l.home tail)) true
  | .clear | .done => True

/-- What a step does not take from the committing process, the buffer that it edits apart -/
structure Steady (l : Log) (p : P) (edited : Option Buf) (c c' : Bcache P) : Prop where
  clean : ∀ {b dev blockno}, edited ≠ some b → c.Clean p b dev blockno → c'.Clean p b dev blockno
  filled : ∀ {b dev blockno data written}, edited ≠ some b →
    c.Filled p b dev blockno data written → c'.Filled p b dev blockno data written
  settled : ∀ {blockno}, l.guarded blockno → c.Settled p l.dev blockno → c'.Settled p l.dev blockno

variable {e : Bcache.Event P}

theorem Steady.of_move [DecidableEq P] (hinv : c.Inv) (hm : Move c e c')
    (hspares : ∀ blockno, l.guarded blockno → e.spares c p l.dev blockno) :
    Steady l p (e.edited p) c c' where
  clean hne h := h.move hinv hm hne
  filled hne h := h.move hinv hm hne
  settled hg h := h.move hinv hm (hspares _ hg)

theorem Steady.of_edit [DecidableEq P] {b : Buf} (hinv : c.Inv) (hm : Move c e c')
    (he : e.edited p = some b) : Steady l p (some b) c c' := by
  rw [← he]
  refine .of_move hinv hm fun blockno _ q b' heq hq => ?_
  rcases heq with rfl | rfl
  · simp only [Event.edited, if_neg hq] at he
    cases he
  · simp only [Event.edited, if_neg hq] at he
    cases he

theorem Copied.steady {o : Option Buf} {n : Nat} (h : Copied c l p n) (hl : l.Proper)
    (hn : n ≤ l.lh.length) (hs : Steady l p o c c')
    (hreleased : ∀ i, i < n →
      c'.released l.dev (l.slot i) = c.released l.dev (l.slot i) ∧
        c'.released l.dev (l.home i) = c.released l.dev (l.home i)) : Copied c' l p n := by
  intro i hi
  obtain ⟨hslot, hhome, heq⟩ := h i hi
  have hi' : i < l.lh.length := by omega
  refine ⟨hs.settled (.inr (hl.slot_inArea hi')) hslot, hs.settled (.inl (Log.home_mem hi')) hhome,
    ?_⟩
  rw [(hreleased i hi).1, (hreleased i hi).2, heq]

theorem At.steady {stage : Stage} (h : At c l p stage) (hl : l.Proper) (hs : Steady l p none c c')
    (hreleased : ∀ blockno, l.guarded blockno → c.Settled p l.dev blockno →
      c'.released l.dev blockno = c.released l.dev blockno) : At c' l p stage := by
  have hcopied : ∀ {n}, n ≤ l.lh.length → Copied c l p n → Copied c' l p n := by
    intro n hn hc
    refine hc.steady hl hn hs fun i hi => ?_
    have hi' : i < l.lh.length := by omega
    exact ⟨hreleased _ (.inr (hl.slot_inArea hi')) (hc i hi).1,
      hreleased _ (.inl (Log.home_mem hi')) (hc i hi).2.1⟩
  have hhome : ∀ {i}, i < l.lh.length → c.Settled p l.dev (l.home i) →
      c'.Settled p l.dev (l.home i) ∧
        c'.released l.dev (l.home i) = c.released l.dev (l.home i) := fun hi hsettled =>
    ⟨hs.settled (.inl (Log.home_mem hi)) hsettled,
      hreleased _ (.inl (Log.home_mem hi)) hsettled⟩
  cases stage with
  | logTo tail => exact ⟨h.1, hcopied (Nat.le_of_lt h.1) h.2⟩
  | logFrom tail tobuf => exact ⟨⟨h.1.1, hcopied (Nat.le_of_lt h.1.1) h.1.2⟩, hs.clean nofun h.2⟩
  | logCopy tail tobuf frombuf =>
    exact ⟨⟨h.1.1, hcopied (Nat.le_of_lt h.1.1) h.1.2⟩, hs.clean nofun h.2.1, hs.clean nofun h.2.2⟩
  | logWrite tail tobuf frombuf | logFromDone tail tobuf frombuf =>
    obtain ⟨⟨htail, hc⟩, hsettled, hto, hfrom⟩ := h
    obtain ⟨hsettled', heq⟩ := hhome htail hsettled
    refine ⟨⟨htail, hcopied (Nat.le_of_lt htail) hc⟩, hsettled', ?_, hs.clean nofun hfrom⟩
    rw [heq]
    exact hs.filled nofun hto
  | logToDone tail tobuf =>
    obtain ⟨⟨htail, hc⟩, hsettled, hto⟩ := h
    obtain ⟨hsettled', heq⟩ := hhome htail hsettled
    refine ⟨⟨htail, hcopied (Nat.le_of_lt htail) hc⟩, hsettled', ?_⟩
    rw [heq]
    exact hs.filled nofun hto
  | headRead last | installLog tail => exact ⟨h.1, hcopied le_rfl h.2⟩
  | headSet last buf | installHome tail lbuf => exact ⟨⟨h.1.1, hcopied le_rfl h.1.2⟩, hs.clean nofun h.2⟩
  | headWrite last buf | headDone last buf =>
    obtain ⟨⟨hlast, hc⟩, data, hbuf⟩ := h
    exact ⟨⟨hlast, hcopied le_rfl hc⟩, data, hs.filled nofun hbuf⟩
  | installCopy tail lbuf dbuf =>
    exact ⟨⟨h.1.1, hcopied le_rfl h.1.2⟩, hs.clean nofun h.2.1, hs.clean nofun h.2.2⟩
  | installWrite tail lbuf dbuf | installLogDone tail lbuf dbuf =>
    obtain ⟨⟨htail, hc⟩, hlog, hdst⟩ := h
    obtain ⟨-, heq⟩ := hhome htail (hc tail htail).2.1
    refine ⟨⟨htail, hcopied le_rfl hc⟩, hs.clean nofun hlog, ?_⟩
    rw [heq]
    exact hs.filled nofun hdst
  | installHomeDone tail dbuf =>
    obtain ⟨⟨htail, hc⟩, hdst⟩ := h
    obtain ⟨-, heq⟩ := hhome htail (hc tail htail).2.1
    refine ⟨⟨htail, hcopied le_rfl hc⟩, ?_⟩
    rw [heq]
    exact hs.filled nofun hdst
  | clear => trivial
  | done => trivial

variable [DecidableEq P]

theorem Copied.of_edit {b : Buf} {n : Nat} (h : Copied c l p n) (hinv : c.Inv) (hl : l.Proper)
    (hn : n ≤ l.lh.length) (hm : Move c e c') (he : e.edited p = some b)
    (hreleased : c'.released = c.released) : Copied c' l p n :=
  h.steady hl hn (.of_edit hinv hm he) fun i _ => by rw [hreleased]; exact ⟨rfl, rfl⟩

section

variable {tail : Nat} {b d : Buf}

omit [DecidableEq P] in
theorem ne_of_carries (hl : l.Proper) (htail : tail < l.lh.length)
    (hb : c.carries b l.dev (l.slot tail)) (hd : c.carries d l.dev (l.home tail)) : b ≠ d := by
  rintro rfl
  exact hl.home_ne_slot htail htail (hd.2.symm.trans hb.2)

variable (hinv : c.Inv) (hl : l.Proper)
include hinv hl

/-- `memmove(to->data, from->data, BSIZE)` in `write_log` -/
theorem At.logCopy (hcoh : c.Coherent) (hidle : c.pc p = .idle)
    (h : At c l p (.logCopy tail b d)) (hm : Move c (.modify p b (c.buf d).data) c') :
    At c' l p (.logWrite tail b d) := by
  obtain ⟨⟨htail, hcopied⟩, hto, hfrom⟩ := h
  have hne := ne_of_carries hl htail hto.1 hfrom.1
  have he : Event.edited p (.modify p b (c.buf d).data) = some b := if_pos rfl
  have hs : Steady l p (some b) c c' := .of_edit hinv hm he
  obtain ⟨hfilled, hreleased⟩ := Filled.of_modify hinv hm hto.1
  have hsettled : c.Settled p l.dev (l.home tail) :=
    hinv.settled_of_lock hfrom.1 (hfrom.holds hidle).2
  refine ⟨⟨htail, hcopied.of_edit hinv hl (Nat.le_of_lt htail) hm he hreleased⟩,
    hs.settled (.inl (Log.home_mem htail)) hsettled, ?_, hs.clean ?_ hfrom⟩
  · rw [hreleased, ← hfrom.data hinv hcoh hidle]
    exact hfilled
  · exact fun heq => hne (Option.some.inj heq)

theorem At.logWrite (h : At c l p (.logWrite tail b d))
    (hm : Move c (.bwrite p b) c') : At c' l p (.logFromDone tail b d) := by
  obtain ⟨⟨htail, hcopied⟩, hsettled, hto, hfrom⟩ := h
  have hne := ne_of_carries hl htail hto.carries hfrom.1
  have he : Event.edited p (.bwrite p b) = some b := if_pos rfl
  have hs : Steady l p (some b) c c' := .of_edit hinv hm he
  obtain ⟨hfilled, hreleased⟩ := hto.bwrite hm
  refine ⟨⟨htail, hcopied.of_edit hinv hl (Nat.le_of_lt htail) hm he hreleased⟩,
    hs.settled (.inl (Log.home_mem htail)) hsettled, ?_, hs.clean ?_ hfrom⟩
  · rw [hreleased]
    exact hfilled
  · exact fun heq => hne (Option.some.inj heq)

theorem At.logFromDone (hcoh : c.Coherent) (hidle : c.pc p = .idle)
    (h : At c l p (.logFromDone tail b d)) (hm : Move c (.brelse p d true) c') :
    At c' l p (.logToDone tail b) := by
  obtain ⟨⟨htail, hcopied⟩, hsettled, hto, hfrom⟩ := h
  have hne := ne_of_carries hl htail hto.carries hfrom.1
  have he : Event.edited p (.brelse p d true) = some d := if_pos rfl
  have hs : Steady l p (some d) c c' := .of_edit hinv hm he
  have hreleased := hfrom.released_eq hinv hcoh hidle hm
  refine ⟨⟨htail, hcopied.of_edit hinv hl (Nat.le_of_lt htail) hm he hreleased⟩,
    hs.settled (.inl (Log.home_mem htail)) hsettled, ?_⟩
  rw [hreleased]
  exact hs.filled (fun heq => hne (Option.some.inj heq).symm) hto

theorem Copied.succ (h : At c l p (.logToDone tail b))
    (hm : Move c (.brelse p b true) c') : Copied c' l p (tail + 1) := by
  obtain ⟨⟨htail, hcopied⟩, hsettled, hto⟩ := h
  have he : Event.edited p (.brelse p b true) = some b := if_pos rfl
  have hs : Steady l p (some b) c c' := .of_edit hinv hm he
  obtain ⟨hself, hother⟩ := hto.released hm
  have hhome : ∀ i, i < l.lh.length →
      c'.released l.dev (l.home i) = c.released l.dev (l.home i) :=
    fun i hi => hother _ _ (.inr (hl.home_ne_slot hi htail))
  intro i hi
  rcases Nat.lt_or_eq_of_le (Nat.le_of_lt_succ hi) with hi | rfl
  · have hi' : i < l.lh.length := by omega
    refine hcopied.steady hl (Nat.le_of_lt htail) hs (fun j hj => ?_) i hi
    have hj' : j < l.lh.length := by omega
    exact ⟨hother _ _ (.inr (Log.slot_ne (by omega))), hhome j hj'⟩
  · refine ⟨?_, hs.settled (.inl (Log.home_mem htail)) hsettled, ?_⟩
    · exact hs.settled (.inr (hl.slot_inArea htail)) (hinv.settled_of_lock hto.carries hto.lock)
    · rw [hself, hhome i htail]

theorem Copied.header {data : Block} {written : Bool} {n : Nat} (h : Copied c l p n)
    (hn : n ≤ l.lh.length) (hb : c.Filled p b l.dev l.start data written)
    (hm : Move c (.brelse p b true) c') : Copied c' l p n := by
  obtain ⟨-, hother⟩ := hb.released hm
  refine h.steady hl hn (.of_edit (b := b) hinv hm (if_pos rfl)) fun i hi => ?_
  have hi' : i < l.lh.length := by omega
  refine ⟨hother _ _ (.inr ?_), hother _ _ (.inr ?_)⟩
  · simp only [Log.slot]
    omega
  · intro heq
    refine hl.outside _ (Log.home_mem hi') ?_
    have := hl.room
    rw [heq, Log.inArea]
    omega

/-- `memmove(dbuf->data, lbuf->data, BSIZE)` in `install_trans` -/
theorem At.installCopy (hcoh : c.Coherent) (hidle : c.pc p = .idle)
    (h : At c l p (.installCopy tail b d)) (hm : Move c (.modify p d (c.buf b).data) c') :
    At c' l p (.installWrite tail b d) := by
  obtain ⟨⟨htail, hcopied⟩, hlog, hdst⟩ := h
  have hne := ne_of_carries hl htail hlog.1 hdst.1
  have he : Event.edited p (.modify p d (c.buf b).data) = some d := if_pos rfl
  have hs : Steady l p (some d) c c' := .of_edit hinv hm he
  obtain ⟨hfilled, hreleased⟩ := Filled.of_modify hinv hm hdst.1
  refine ⟨⟨htail, hcopied.of_edit hinv hl le_rfl hm he hreleased⟩,
    hs.clean (fun heq => hne (Option.some.inj heq).symm) hlog, ?_⟩
  rw [hreleased, ← (hcopied tail htail).2.2, ← hlog.data hinv hcoh hidle]
  exact hfilled

theorem At.installWrite (h : At c l p (.installWrite tail b d))
    (hm : Move c (.bwrite p d) c') : At c' l p (.installLogDone tail b d) := by
  obtain ⟨⟨htail, hcopied⟩, hlog, hdst⟩ := h
  have hne := ne_of_carries hl htail hlog.1 hdst.carries
  have he : Event.edited p (.bwrite p d) = some d := if_pos rfl
  have hs : Steady l p (some d) c c' := .of_edit hinv hm he
  obtain ⟨hfilled, hreleased⟩ := hdst.bwrite hm
  refine ⟨⟨htail, hcopied.of_edit hinv hl le_rfl hm he hreleased⟩,
    hs.clean (fun heq => hne (Option.some.inj heq).symm) hlog, ?_⟩
  rw [hreleased]
  exact hfilled

theorem At.installLogDone (hcoh : c.Coherent) (hidle : c.pc p = .idle)
    (h : At c l p (.installLogDone tail b d))
    (hm : Move c (.brelse p b true) c') : At c' l p (.installHomeDone tail d) := by
  obtain ⟨⟨htail, hcopied⟩, hlog, hdst⟩ := h
  have hne := ne_of_carries hl htail hlog.1 hdst.carries
  have he : Event.edited p (.brelse p b true) = some b := if_pos rfl
  have hs : Steady l p (some b) c c' := .of_edit hinv hm he
  have hreleased := hlog.released_eq hinv hcoh hidle hm
  refine ⟨⟨htail, hcopied.of_edit hinv hl le_rfl hm he hreleased⟩, ?_⟩
  rw [hreleased]
  exact hs.filled (fun heq => hne (Option.some.inj heq)) hdst

end

namespace Sys

variable {s s' : Sys P} {stage : Stage}

structure Inv (s : Sys P) : Prop where
  cache : s.cache.Inv
  coherent : s.cache.Coherent
  loading : s.cache.Loading
  proper : s.log.Proper
  ops : ∃ l : List P, l.Nodup ∧ (∀ p, s.inOp p = true ↔ p ∈ l) ∧ s.log.outstanding = l.length
  writers : ∀ p b, s.writing p = some b → s.inOp p = true ∧ s.cache.holds p b ∧
    ¬s.log.inArea (s.cache.buf b).blockno
  committing : ∀ p stage, s.commit = some (p, stage) →
    s.log.outstanding = 0 ∧ At s.cache s.log p stage

theorem commitRead_eq_next {blockno : Nat} {next : Buf → Stage}
    (hs : s.commitRead p blockno next = .next s') : ∃ b c,
      s.cache.bget p s.log.dev blockno = .next (b, c) ∧
        s' = { s with cache := c, commit := some (p, next b) } := by
  rw [commitRead] at hs
  split at hs <;> cases hs
  rename_i b c hget
  exact ⟨b, c, hget, rfl⟩

theorem onCache_eq_next {f : Sys P → Sys P} (hs : s.onCache e f = .next s') :
    ∃ c, s.cache.step e = .next c ∧ s' = f { s with cache := c } := by
  rw [onCache] at hs
  split at hs <;> cases hs
  rename_i c hstep
  exact ⟨c, hstep, rfl⟩

omit [DecidableEq P] in
theorem Inv.outstanding_pos (h : s.Inv) (hp : s.inOp p = true) : 0 < s.log.outstanding := by
  obtain ⟨l, -, hmem, hlen⟩ := h.ops
  have hpos := List.length_pos_of_mem ((hmem p).mp hp)
  omega

section

variable (h : s.Inv) (hc : s.commit = some (p, stage))
include h hc

omit [DecidableEq P] in
theorem Inv.not_writing (q : P) (b : Buf) : s.writing q ≠ some b := by
  intro hq
  have hpos := h.outstanding_pos (h.writers q b hq).1
  have hzero := (h.committing p stage hc).1
  omega

theorem Inv.commitOn {next : Stage} (hs : s.commitOn p e next = .next s')
    (hcareful : s.cache.Careful e) (hat : ∀ c, Move s.cache e c → At c s.log p next) : s'.Inv := by
  obtain ⟨c, hstep, rfl⟩ := onCache_eq_next hs
  have hm := Move.of_step h.cache hstep
  refine ⟨h.cache.move hm, h.coherent.move h.cache hm hcareful, h.loading.move h.cache hm, h.proper,
    h.ops, fun q b hq => absurd hq (h.not_writing hc q b), ?_⟩
  rintro _ _ ⟨⟩
  exact ⟨(h.committing p stage hc).1, hat c hm⟩

theorem Inv.commitRead (hidle : s.cache.pc p = .idle) {blockno : Nat} {next : Buf → Stage}
    (hs : s.commitRead p blockno next = .next s')
    (hat : ∀ b c, At c s.log p stage → c.Clean p b s.log.dev blockno → At c s.log p (next b)) :
    s'.Inv := by
  obtain ⟨b, c, hget, rfl⟩ := commitRead_eq_next hs
  obtain ⟨hm, hclean⟩ := Move.of_bget h.cache hidle hget
  obtain ⟨hout, hstage⟩ := h.committing p stage hc
  refine ⟨h.cache.move hm, h.coherent.move h.cache hm trivial, h.loading.move h.cache hm, h.proper,
    h.ops, fun q b hq => absurd hq (h.not_writing hc q b), ?_⟩
  rintro _ _ ⟨⟩
  refine ⟨hout, hat b c (hstage.steady h.proper (.of_move h.cache hm ?_) ?_) hclean⟩
  · exact fun _ _ => Event.spares_of_ne fun _ _ => ⟨nofun, nofun⟩
  · exact fun blockno' _ hsettled =>
      hsettled.released_eq h.cache h.coherent hm trivial (by nofun)

theorem Inv.commitStage (hidle : s.cache.pc p = .idle)
    (hs : s.commitStage p stage = .next s') : s'.Inv := by
  obtain ⟨hout, hat⟩ := h.committing p stage hc
  cases stage with
  | logTo tail | headRead last | installLog tail =>
    exact h.commitRead hc hidle hs fun b c hat hclean => ⟨hat, hclean⟩
  | logFrom tail tobuf | installHome tail lbuf =>
    exact h.commitRead hc hidle hs fun b c hat hclean => ⟨hat.1, hat.2, hclean⟩
  | logCopy tail tobuf frombuf =>
    exact h.commitOn hc hs trivial fun c hm => At.logCopy h.cache h.proper h.coherent hidle hat hm
  | logWrite tail tobuf frombuf =>
    exact h.commitOn hc hs trivial fun c hm => At.logWrite h.cache h.proper hat hm
  | logFromDone tail tobuf frombuf =>
    exact h.commitOn hc hs (hat.2.2.2.careful hidle) fun c hm =>
      At.logFromDone h.cache h.proper h.coherent hidle hat hm
  | logToDone tail tobuf =>
    refine h.commitOn hc hs hat.2.2.careful fun c hm => ?_
    have hcopied := Copied.succ h.cache h.proper hat hm
    have htail := hat.1.1
    split
    next hmore => exact ⟨hmore, hcopied⟩
    next hmore =>
      have hn : s.log.lh.length = tail + 1 := by omega
      exact ⟨fun _ => by omega, hn ▸ hcopied⟩
  | headSet last buf =>
    refine h.commitOn hc hs trivial fun c hm => ?_
    obtain ⟨hfilled, hreleased⟩ := Filled.of_modify h.cache hm hat.2.1
    exact ⟨⟨hat.1.1, hat.1.2.of_edit (b := buf) h.cache h.proper le_rfl hm (if_pos rfl) hreleased⟩, _,
      hfilled⟩
  | headWrite last buf =>
    obtain ⟨⟨hlast, hcopied⟩, data, hbuf⟩ := hat
    refine h.commitOn hc hs trivial fun c hm => ?_
    obtain ⟨hfilled, hreleased⟩ := hbuf.bwrite hm
    exact ⟨⟨hlast, hcopied.of_edit (b := buf) h.cache h.proper le_rfl hm (if_pos rfl) hreleased⟩, _,
      hfilled⟩
  | headDone last buf =>
    obtain ⟨⟨hlast, hcopied⟩, data, hbuf⟩ := hat
    refine h.commitOn hc hs hbuf.careful fun c hm => ?_
    have hcopied' := hcopied.header h.cache h.proper le_rfl hbuf hm
    cases last with
    | false => exact ⟨hlast rfl, hcopied'⟩
    | true => trivial
  | installCopy tail lbuf dbuf =>
    exact h.commitOn hc hs trivial fun c hm =>
      At.installCopy h.cache h.proper h.coherent hidle hat hm
  | installWrite tail lbuf dbuf =>
    exact h.commitOn hc hs trivial fun c hm => At.installWrite h.cache h.proper hat hm
  | installLogDone tail lbuf dbuf =>
    exact h.commitOn hc hs (hat.2.1.careful hidle) fun c hm =>
      At.installLogDone h.cache h.proper h.coherent hidle hat hm
  | installHomeDone tail dbuf =>
    obtain ⟨⟨htail, hcopied⟩, hdst⟩ := hat
    have hlast : (s.cache.buf dbuf).data = s.cache.last dbuf := by
      rw [hdst.data, last, hdst.carries.1, hdst.carries.2]
    refine h.commitOn hc hs ⟨hdst.written rfl, fun _ => hlast⟩ fun c hm => ?_
    have hreleased : c.released = s.cache.released := by
      cases hm
      rfl
    have hcopied' := hcopied.of_edit (b := dbuf) h.cache h.proper le_rfl hm (if_pos rfl) hreleased
    split
    next hmore => exact ⟨hmore, hcopied'⟩
    next => trivial
  | clear =>
    obtain rfl := Outcome.next.inj hs
    refine ⟨h.cache, h.coherent, h.loading, ⟨by simp, Nat.zero_le _⟩, h.ops,
      fun q b hq => absurd hq (h.not_writing hc q b), ?_⟩
    rintro _ _ ⟨⟩
    exact ⟨hout, by simp, by rintro _ ⟨⟩⟩
  | done =>
    obtain rfl := Outcome.next.inj hs
    exact ⟨h.cache, h.coherent, h.loading, h.proper, h.ops, h.writers, by simp⟩

end

theorem free_of_commit {q : P} (hfree : s.free q) (hc : s.commit = some (p, stage)) : q ≠ p := by
  rintro rfl
  have hnot := hfree.1
  rw [hc] at hnot
  simp at hnot

theorem Inv.onCache (h : s.Inv) (hs : s.onCache e id = .next s')
    (hcareful : s.cache.Careful e) (hproc : s.free e.proc ∨ ∃ q, e = .run q)
    (hforeign : ∀ p stage, s.commit = some (p, stage) →
      e.edited p = none ∧
        ∀ blockno, s.log.guarded blockno → e.spares s.cache p s.log.dev blockno) : s'.Inv := by
  obtain ⟨c, hstep, rfl⟩ := onCache_eq_next hs
  have hm := Move.of_step h.cache hstep
  refine ⟨h.cache.move hm, h.coherent.move h.cache hm hcareful, h.loading.move h.cache hm, h.proper, h.ops, ?_, ?_⟩
  · intro p b hp
    obtain ⟨hin, hholds, harea⟩ := h.writers p b hp
    have hidle : e.proc = p → e = .run p := by
      rintro rfl
      rcases hproc with hfree | ⟨q, rfl⟩
      · exact nomatch hfree.2.symm.trans hp
      · rfl
    obtain ⟨hholds', hblock⟩ := hm.holds h.cache hholds hidle
    exact ⟨hin, hholds', hblock.symm ▸ harea⟩
  intro p stage hc
  obtain ⟨hout, hat⟩ := h.committing p stage hc
  obtain ⟨hedited, hspares⟩ := hforeign p stage hc
  have hsteady : Steady s.log p none s.cache c := hedited ▸ .of_move h.cache hm hspares
  refine ⟨hout, hat.steady h.proper hsteady fun blockno _ hsettled => ?_⟩
  refine hsettled.released_eq h.cache h.coherent hm hcareful ?_
  rintro b record rfl
  exact nomatch hedited.symm.trans (if_pos rfl)

/-- `log_write` is called in an operation of the process's own and not for blocks of the log itself, and
when it adds a block the log still has room for it; while a commit runs the blocks that it deals with
are not written directly. -/
def Orderly (s : Sys P) : Event P → Prop
  | .logWrite p b => s.inOp p = true ∧ ¬s.log.inArea (s.cache.buf b).blockno
  | .logSection p => ∀ b ∈ s.writing p, (s.cache.buf b).blockno ∉ s.log.lh → s.log.lh.length < s.log.size - 1
  | .bwrite _ b =>
    s.commit = none ∨ (s.cache.buf b).dev ≠ s.log.dev ∨
      (s.cache.buf b).blockno ∉ s.log.lh ∧ ¬s.log.inArea (s.cache.buf b).blockno
  | _ => True

theorem Inv.logWrite (h : s.Inv) {b : Buf} (hholds : s.cache.holds p b) (hok : s.Orderly (.logWrite p b))
    (hs : s.logWrite p b = .next s') : s'.Inv := by
  rw [Sys.logWrite] at hs
  split_ifs at hs
  cases hs
  refine ⟨h.cache, h.coherent, h.loading, h.proper, h.ops, fun q b' hq => ?_, h.committing⟩
  by_cases hqp : q = p
  · subst q
    change Function.update s.writing p (some b) p = some b' at hq
    rw [update_self] at hq
    obtain rfl := Option.some.inj hq
    exact ⟨hok.1, hholds, hok.2⟩
  · exact h.writers q b' ((update_of_ne hqp ..).symm.trans hq)

theorem Inv.logSection (h : s.Inv) {b : Buf} (hb : s.writing p = some b) (hok : s.Orderly (.logSection p))
    (hs : s.logSection p b = .next s') : s'.Inv := by
  obtain ⟨hin, hholds, harea⟩ := h.writers p b hb
  rw [Sys.logSection] at hs
  split_ifs at hs
  obtain ⟨c, hstep, rfl⟩ := onCache_eq_next hs
  have hm := Move.of_step h.cache hstep
  refine ⟨h.cache.move hm, h.coherent.move h.cache hm trivial, h.loading.move h.cache hm, ⟨?_, ?_⟩, h.ops, ?_, ?_⟩
  · intro blockno hmem
    change blockno ∈ (if _ then _ else _) at hmem
    split at hmem
    next => exact h.proper.outside blockno hmem
    next =>
      rcases List.mem_append.mp hmem with hmem | hmem
      · exact h.proper.outside blockno hmem
      · rw [List.mem_singleton.mp hmem]
        exact harea
  · change (if _ then _ else _ : List Nat).length ≤ _
    split
    next => exact h.proper.room
    next hnew =>
      have hroom := hok b hb hnew
      rw [List.length_append, List.length_singleton]
      exact hroom
  · intro q b' hq
    have hqp : q ≠ p := by
      rintro rfl
      exact nomatch (update_self ..).symm.trans hq
    obtain ⟨hin', hholds', harea'⟩ := h.writers q b' ((update_of_ne hqp ..).symm.trans hq)
    obtain ⟨hholds'', hblock⟩ := hm.holds h.cache hholds' fun heq => absurd heq.symm hqp
    exact ⟨hin', hholds'', hblock.symm ▸ harea'⟩
  · intro p' stage hc
    exact absurd hb (h.not_writing hc p b)

theorem Inv.begins (h : s.Inv) (hp : s.inOp p = false) : ∃ l : List P, l.Nodup ∧
    (∀ q, Function.update s.inOp p true q = true ↔ q ∈ l) ∧ s.log.outstanding + 1 = l.length := by
  obtain ⟨l, hnodup, hmem, hlen⟩ := h.ops
  have hnot : p ∉ l := fun hin => nomatch hp.symm.trans ((hmem p).mpr hin)
  refine ⟨p :: l, List.nodup_cons.mpr ⟨hnot, hnodup⟩, fun q => ?_, by rw [hlen]; simp⟩
  by_cases hq : q = p
  · simp [hq]
  · simp [hq, hmem]

theorem Inv.ends (h : s.Inv) (hp : s.inOp p = true) : ∃ l : List P, l.Nodup ∧
    (∀ q, Function.update s.inOp p false q = true ↔ q ∈ l) ∧ s.log.outstanding - 1 = l.length := by
  obtain ⟨l, hnodup, hmem, hlen⟩ := h.ops
  have hin := (hmem p).mp hp
  have hpos := List.length_pos_of_mem hin
  refine ⟨l.erase p, hnodup.erase p, fun q => ?_, ?_⟩
  · by_cases hq : q = p
    · simp [hq, hnodup.not_mem_erase]
    · simp [hq, hmem, List.mem_erase_of_ne hq]
  · rw [List.length_erase_of_mem hin]
    omega

theorem Inv.step (h : s.Inv) {e : Event P} (hok : s.Orderly e) (hs : s.step e = .next s') :
    s'.Inv := by
  cases e with
  | bread q dev blockno =>
    rw [Sys.step] at hs
    split_ifs at hs with hfree
    exact h.onCache hs trivial (.inl hfree) fun _ _ _ =>
      ⟨rfl, fun _ _ => Event.spares_of_ne fun _ _ => ⟨nofun, nofun⟩⟩
  | run q =>
    exact h.onCache hs trivial (.inr ⟨q, rfl⟩) fun _ _ _ =>
      ⟨rfl, fun _ _ => Event.spares_of_ne fun _ _ => ⟨nofun, nofun⟩⟩
  | modify q b data =>
    rw [Sys.step] at hs
    split_ifs at hs with hfree
    exact h.onCache hs trivial (.inl hfree) fun _ _ hc =>
      ⟨if_neg (free_of_commit hfree hc), fun _ _ => Event.spares_of_ne fun _ _ => ⟨nofun, nofun⟩⟩
  | logWrite q b =>
    rw [Sys.step] at hs
    split_ifs at hs with hguard
    exact h.logWrite hguard.2 hok hs
  | logSection q =>
    rw [Sys.step] at hs
    split at hs
    · exact h.logSection ‹_› hok hs
    · cases hs
  | bwrite q b =>
    rw [Sys.step] at hs
    split_ifs at hs with hfree
    refine h.onCache hs trivial (.inl hfree) fun p stage hc => ⟨if_neg (free_of_commit hfree hc), ?_⟩
    rintro blockno hguarded q' b' (he | he) _ ⟨hdev, rfl⟩
    · cases he
    obtain ⟨rfl, rfl⟩ := Bcache.Event.bwrite.inj he
    rcases hok with hnone | hne | ⟨hlh, harea⟩
    · exact nomatch hnone.symm.trans hc
    · exact hne hdev
    · exact hguarded.elim hlh harea
  | brelse q b =>
    rw [Sys.step] at hs
    split_ifs at hs with hguard
    exact h.onCache hs ⟨hguard.2, nofun⟩ (.inl hguard.1) fun _ _ hc =>
      ⟨if_neg (free_of_commit hguard.1 hc), fun _ _ => Event.spares_of_ne fun _ _ => ⟨nofun, nofun⟩⟩
  | beginOp q =>
    simp only [Sys.step, beginOp] at hs
    split_ifs at hs with hguard hnone
    cases hs
    refine ⟨h.cache, h.coherent, h.loading, ⟨h.proper.outside, h.proper.room⟩, h.begins hguard.2.2,
      fun p b hp => ?_, fun p stage hc => absurd (Option.isSome_of_eq_some hc) hnone⟩
    obtain ⟨hin, hrest⟩ := h.writers p b hp
    refine ⟨?_, hrest⟩
    by_cases hpq : p = q
    · rw [hpq]
      exact update_self ..
    · exact (update_of_ne hpq ..).trans hin
  | endOp q =>
    rw [Sys.step] at hs
    split_ifs at hs with hguard
    rw [endOp] at hs
    split at hs
    · cases hs
    cases hs
    refine ⟨h.cache, h.coherent, h.loading, ⟨h.proper.outside, h.proper.room⟩, h.ends hguard.2.2,
      fun p b hp => ?_, fun p stage hc => ?_⟩
    · obtain ⟨hin, hrest⟩ := h.writers p b hp
      have hpq : p ≠ q := by
        rintro rfl
        exact nomatch hguard.1.2.symm.trans hp
      exact ⟨(update_of_ne hpq ..).trans hin, hrest⟩
    · simp only at hc ⊢
      split_ifs at hc with hzero hlen <;> cases hc
      · exact ⟨hzero, hlen, nofun⟩
      · exact ⟨hzero, trivial⟩
  | commit =>
    rw [Sys.step] at hs
    split at hs
    next p stage hc =>
      split_ifs at hs with hidle
      exact h.commitStage hc hidle hs
    next => cases hs

omit [DecidableEq P] in
theorem Inv.init (disk : Nat → Nat → Block) (dev start size : Nat) :
    (init disk dev start size : Sys P).Inv where
  cache := .init disk
  coherent := ⟨fun _ _ _ => rfl, fun _ hused => absurd ⟨⟨rfl, rfl⟩, rfl, rfl⟩ hused⟩
  loading _ _ hload := nomatch hload
  proper := ⟨nofun, Nat.zero_le _⟩
  ops := ⟨[], List.nodup_nil, by simp [Sys.init], rfl⟩
  writers _ _ hp := nomatch hp
  committing _ _ hc := nomatch hc

theorem Inv.cache_step (h : s.Inv) {e : Event P} (hs : s.step e = .next s') :
    s'.cache = s.cache ∨ ∃ e', Move s.cache e' s'.cache := by
  have hcache : ∀ {e' f}, s.onCache e' f = .next s' → (∀ s : Sys P, (f s).cache = s.cache) →
      s'.cache = s.cache ∨ ∃ e', Move s.cache e' s'.cache := by
    intro e' f hon hf
    obtain ⟨c, hstep, rfl⟩ := onCache_eq_next hon
    rw [hf]
    exact .inr ⟨e', .of_step h.cache hstep⟩
  have hread : ∀ {p blockno next}, s.cache.pc p = .idle → s.commitRead p blockno next = .next s' →
      s'.cache = s.cache ∨ ∃ e', Move s.cache e' s'.cache := by
    intro p blockno next hidle hread
    obtain ⟨b, c, hget, rfl⟩ := commitRead_eq_next hread
    exact .inr ⟨_, (Move.of_bget h.cache hidle hget).1⟩
  cases e with
  | bread | modify | bwrite | brelse =>
    rw [Sys.step] at hs
    split_ifs at hs
    exact hcache hs fun _ => rfl
  | run => exact hcache hs fun _ => rfl
  | logWrite | beginOp =>
    simp only [Sys.step, Sys.logWrite, Sys.beginOp] at hs
    split_ifs at hs
    cases hs
    exact .inl rfl
  | logSection =>
    simp only [Sys.step, Sys.logSection] at hs
    split at hs
    · split_ifs at hs
      exact hcache hs fun _ => rfl
    · cases hs
  | endOp =>
    rw [Sys.step] at hs
    split_ifs at hs
    rw [Sys.endOp] at hs
    split at hs <;> cases hs
    exact .inl rfl
  | commit =>
    rw [Sys.step] at hs
    split at hs
    next p stage hc =>
      split_ifs at hs with hidle
      cases stage with
      | logTo | logFrom | headRead | installLog | installHome => exact hread hidle hs
      | logCopy | logWrite | logFromDone | logToDone | headSet | headWrite | headDone
      | installCopy | installWrite | installLogDone | installHomeDone =>
        rw [Sys.commitStage, Sys.commitOn] at hs
        exact hcache hs fun _ => rfl
      | clear | done =>
        cases hs
        exact .inl rfl
    next => cases hs

end Sys

end Bio

namespace Bcache

open Bio

variable {P : Type} [DecidableEq P] {c : Bcache P} {p : P} {b : Buf}

theorem run_load (hinv : c.Inv) (hcoh : c.Coherent) (hloading : c.Loading) (hload : c.pc p = .load b) :
    ∃ c', c.step (.run p) = .next c' ∧ (c'.buf b).lock = some p ∧
      c'.carries b (c.buf b).dev (c.buf b).blockno ∧ (c'.buf b).data = c.last b := by
  have hlock := hinv.loads p b hload
  have hold := hcoh.inStep hinv (hinv.locks p b hlock)
  rw [step, run]
  simp only [hload]
  by_cases hvalid : (c.buf b).valid = true
  · rw [if_pos hvalid]
    exact ⟨_, rfl, hlock, ⟨rfl, rfl⟩, hold.data hvalid (.inr (hloading p b hload))⟩
  · rw [if_neg hvalid]
    have hclean : ¬(c.buf b).dirty = true := fun hdirty => hvalid (hinv.pinned b hdirty)
    have hbuf : (c.goto p .idle).buf = c.buf := rfl
    simp only [iderw, hbuf, hlock, ne_eq, not_true_eq_false, if_false, hvalid, hclean, false_and,
      Bool.false_eq_true]
    have hself : ((c.goto p .idle).modify b fun y =>
        { y with valid := true, data := c.disk (c.buf b).dev (c.buf b).blockno }).buf b = _ :=
      update_self ..
    refine ⟨_, rfl, ?_, ?_, ?_⟩
    · exact (congrArg Entry.lock hself).trans hlock
    · exact ⟨(congrArg Entry.dev hself).trans rfl, (congrArg Entry.blockno hself).trans rfl⟩
    · exact (congrArg Entry.data hself).trans (hold.unread (by simpa using hvalid))

end Bcache

namespace Bio.Sys

open Bcache

variable {P : Type} [DecidableEq P]

/-- In every orderly run `bread` returns the data last released for the block, or the initial contents
of the disk.  A buffer that is dirty is not given to another block, and what `install_trans` brings
home is what was last released. -/
theorem bread_last_released (disk : Nat → Nat → Block) (dev start size : Nat) {s : Sys P}
    (h : Reach step Orderly (init disk dev start size) s) :
    (∀ u ∈ s.cache.users, s.cache.pc u.proc = .load u.buf →
        ∃ s', s.step (.run u.proc) = .next s' ∧ (s'.cache.buf u.buf).lock = some u.proc ∧
          s'.cache.carries u.buf u.dev u.blockno ∧
          (s'.cache.buf u.buf).data = s.cache.released u.dev u.blockno) ∧
      (∀ b, (s.cache.buf b).dirty = true → ∀ e s', s.step e = .next s' →
        s'.cache.carries b (s.cache.buf b).dev (s.cache.buf b).blockno) ∧
      ∀ p tail dbuf, s.commit = some (p, .installHomeDone tail dbuf) →
        (s.cache.buf dbuf).data = s.cache.released s.log.dev (s.log.lh.getD tail 0) := by
  have hinv : s.Inv := h.invariant (.init disk dev start size) fun _ _ _ hi hok hs => hi.step hok hs
  refine ⟨?_, ?_, ?_⟩
  · intro u hu hload
    obtain ⟨hdev, hblockno⟩ := hinv.cache.block u hu
    obtain ⟨c, hstep, hlock, hcarries, hdata⟩ := run_load hinv.cache hinv.coherent hinv.loading hload
    rw [last, hdev, hblockno] at hdata
    rw [hdev, hblockno] at hcarries
    refine ⟨{ s with cache := c }, ?_, hlock, hcarries, hdata⟩
    rw [step, onCache, hstep]
    rfl
  · intro b hdirty e s' hs
    rcases hinv.cache_step hs with heq | ⟨e', hm⟩
    · rw [heq]
      exact ⟨rfl, rfl⟩
    · exact hm.carries (.inr hdirty)
  · intro p tail dbuf hc
    exact (hinv.committing p _ hc).2.2.data

instance (s : Sys P) (e : Event P) : Decidable (s.Orderly e) :=
  match e with
  | .logWrite p b => inferInstanceAs (Decidable (s.inOp p = true ∧ ¬s.log.inArea (s.cache.buf b).blockno))
  | .logSection p => inferInstanceAs (Decidable (∀ b ∈ s.writing p,
      (s.cache.buf b).blockno ∉ s.log.lh → s.log.lh.length < s.log.size - 1))
  | .bwrite _ b =>
    match hc : s.commit with
    | none => .isTrue (.inl hc)
    | some _ =>
      decidable_of_iff ((s.cache.buf b).dev ≠ s.log.dev ∨
        (s.cache.buf b).blockno ∉ s.log.lh ∧ ¬s.log.inArea (s.cache.buf b).blockno)
        (by simp [Orderly, hc])
  | .bread .. | .run _ | .modify .. | .brelse .. | .beginOp _ | .endOp _ | .commit => .isTrue trivial

section

/-- `commit` reads a block. -/
def readEvents : List (Event Bool) := [.commit, .run false, .run false]

/-- `commit` releases a block. -/
def releaseEvents : List (Event Bool) := [.commit, .run false]

/-- `write_log` or `install_trans`, for one block -/
def copyEvents : List (Event Bool) :=
  readEvents ++ readEvents ++ [.commit, .commit] ++ releaseEvents ++ releaseEvents

/-- `write_head` -/
def headEvents : List (Event Bool) := readEvents ++ [.commit, .commit] ++ releaseEvents

/-- `false` logs block 50, fills it with ones, and commits up to `install_trans`; `true` does its own
part; `false` goes on to the end, and `true` reads the block again. -/
def commitEvents (between : List (Event Bool)) : List (Event Bool) :=
  [.beginOp false, .bread false 1 50, .run false, .run false, .modify false 0 fun _ => 1,
      .logWrite false 0, .logSection false, .brelse false 0, .run false, .endOp false] ++ copyEvents ++ headEvents ++
    between ++ copyEvents ++ [.commit] ++ headEvents ++ [.commit, .bread true 1 50, .run true]

/-- `true` writes twos to block 50, past the log. -/
def pastLog : List (Event Bool) :=
  [.bread true 1 50, .run true, .run true, .modify true 0 fun _ => 2, .bwrite true 0, .brelse true 0,
    .run true]

def commitStart : Sys Bool := init (fun _ _ => Bytes.zero) 1 2 30

theorem bread_last_released_commit :
    ∃ s : Sys Bool, Reach step Orderly commitStart s ∧ s.cache.pc true = .load 0 ∧
      ∃ s', s.step (.run true) = .next s' ∧ (s'.cache.buf 0).data.get 0 = 1 := by
  obtain ⟨s, hrun, husers, hpc, hreleased⟩ := Outcome.exists_of_holds
    (r := runEvents step commitStart (commitEvents []))
    (Q := fun s => ⟨true, 0, 1, 50⟩ ∈ s.cache.users ∧ s.cache.pc true = .load 0 ∧
      (s.cache.released 1 50).get 0 = 1) (by decide +kernel)
  have hreach : Reach step Orderly commitStart s :=
    .of_runEvents .init _ (by decide +kernel) hrun
  obtain ⟨s', hstep, -, -, hdata⟩ :=
    (bread_last_released _ 1 2 30 hreach).1 ⟨true, 0, 1, 50⟩ husers hpc
  exact ⟨s, hreach, hpc, s', hstep, by rw [hdata, hreleased]⟩

/-- The update of `true` is lost: `install_trans` brings the older data home. -/
theorem bwrite_past_log_lost : ∃ s s' : Sys Bool, Reach step (fun _ _ => True) commitStart s ∧
      ⟨true, 0, 1, 50⟩ ∈ s.cache.users ∧ s.cache.pc true = .load 0 ∧
      s.step (.run true) = .next s' ∧ (s'.cache.buf 0).data ≠ s.cache.released 1 50 := by
  obtain ⟨s, hrun, husers, hpc, hreleased, hstep⟩ := Outcome.exists_of_holds
    (r := runEvents step commitStart (commitEvents pastLog))
    (Q := fun s => ⟨true, 0, 1, 50⟩ ∈ s.cache.users ∧ s.cache.pc true = .load 0 ∧
      (s.cache.released 1 50).get 0 = 2 ∧
      (s.step (.run true)).holds fun s' => (s'.cache.buf 0).data.get 0 = 1) (by decide +kernel)
  obtain ⟨s', hstep, hdata⟩ := Outcome.exists_of_holds hstep
  refine ⟨s, s', .of_runEvents .init _ (Along.of_forall (fun _ _ => trivial) _ _) hrun, husers, hpc,
    hstep, fun heq => ?_⟩
  rw [heq, hreleased] at hdata
  cases hdata

end

end Bio.Sys

end Xv6
