import Xv6.Bio.Coherence

/-!
# Buffers of a committing process

What a step of the cache leaves to one process: a block that it has locked keeps its data, and a block
that no other process has changed keeps what was last released for it, unless another process calls
`log_write` or `bwrite` for it.
-/

namespace Xv6

open Function (update_of_ne update_self)

namespace Bcache

open Bio

variable {P : Type} {c c' : Bcache P} {e : Event P} {p : P} {b : Buf} {dev blockno : Nat}

/-- No process but `p` has changed the block and may release it. -/
def Settled (c : Bcache P) (p : P) (dev blockno : Nat) : Prop :=
  ∀ b q, c.carries b dev blockno → (c.buf b).lock = some q → q ≠ p → (c.buf b).touched = true →
    (c.buf b).changed = true

/-- `p` has locked the block and not changed it, or it waits for the lock. -/
def Clean (c : Bcache P) (p : P) (b : Buf) (dev blockno : Nat) : Prop :=
  c.carries b dev blockno ∧
    (c.pc p = .wait b ∨
      (c.buf b).lock = some p ∧ (c.buf b).touched = false ∧ (c.buf b).changed = false)

/-- `p` has locked the block and filled it in. -/
structure Filled (c : Bcache P) (p : P) (b : Buf) (dev blockno : Nat) (data : Block)
    (written : Bool) : Prop where
  carries : c.carries b dev blockno
  lock : (c.buf b).lock = some p
  valid : (c.buf b).valid = true
  data : (c.buf b).data = data
  written : written = true → (c.buf b).changed = false

/-- What others leave of a buffer that is locked -/
structure Kept (x y : Entry P) : Prop where
  block : y.dev = x.dev ∧ y.blockno = x.blockno
  lock : y.lock = x.lock
  marks : y.touched = x.touched ∧ y.changed = x.changed
  data : x.valid = true → y.valid = true ∧ y.data = x.data

theorem Kept.refl (x : Entry P) : Kept x x := ⟨⟨rfl, rfl⟩, rfl, ⟨rfl, rfl⟩, fun h => ⟨h, rfl⟩⟩

theorem Kept.update {x : Entry P} (hbuf : c'.buf = Function.update c.buf b x) {b' : Buf}
    (hb : b' = b → Kept (c.buf b) x) : Kept (c.buf b') (c'.buf b') := by
  rw [hbuf]
  by_cases heq : b' = b
  · subst b'
    rw [update_self]
    exact hb rfl
  · rw [update_of_ne heq]
    exact .refl _

theorem Settled.update (h : c.Settled p dev blockno) {x : Entry P}
    (hbuf : c'.buf = Function.update c.buf b x)
    (hsame : x.dev = (c.buf b).dev ∧ x.blockno = (c.buf b).blockno)
    (hx : c.carries b dev blockno → ∀ q, x.lock = some q → q ≠ p → x.touched = true →
      x.changed = true) : c'.Settled p dev blockno := by
  intro b' q hc hlock hq htouched
  rw [carries_iff hbuf hsame] at hc
  rw [hbuf] at hlock htouched ⊢
  by_cases heq : b' = b
  · subst b'
    rw [update_self] at hlock htouched ⊢
    exact hx hc q hlock hq htouched
  · rw [update_of_ne heq] at hlock htouched ⊢
    exact h b' q hc hlock hq htouched

theorem Inv.carries_unique (h : c.Inv) {q : P} {b' : Buf} (hb : c.carries b dev blockno)
    (hb' : c.carries b' dev blockno) (hlock : (c.buf b).lock = some p)
    (hlock' : (c.buf b').lock = some q) : b = b' :=
  h.unique b b' dev blockno (not_fresh_of_refcnt (h.refcnt_pos (h.locks p b hlock)))
    (not_fresh_of_refcnt (h.refcnt_pos (h.locks q b' hlock'))) hb hb'

theorem Inv.settled_of_lock (h : c.Inv) (hb : c.carries b dev blockno)
    (hlock : (c.buf b).lock = some p) : c.Settled p dev blockno := by
  intro b' q hb' hlock' hq
  obtain rfl := h.carries_unique hb hb' hlock hlock'
  exact absurd (Option.some.inj (hlock'.symm.trans hlock)) hq

variable [DecidableEq P]

/-- The buffer that `p` changes, marks or releases -/
def Event.edited (p : P) : Event P → Option Buf
  | .modify q b _ | .pin q b | .bwrite q b | .brelse q b _ => if q = p then some b else none
  | .bread .. | .run _ => none

theorem Move.kept (hinv : c.Inv) (hm : Move c e c') (hlock : (c.buf b).lock = some p)
    (hne : e.edited p ≠ some b) : Kept (c.buf b) (c'.buf b) := by
  -- Another process does not hold the buffer.
  have hholder : ∀ {q b'}, c.holds q b' → (if q = p then some b' else none) ≠ some b → b ≠ b' := by
    rintro q _ hholds hne rfl
    have hq : q = p := Option.some.inj (hholds.2.symm.trans hlock)
    exact hne (if_pos hq)
  cases hm with
  | hit | drop =>
    refine .update rfl fun _ => ?_
    exact ⟨⟨rfl, rfl⟩, rfl, ⟨rfl, rfl⟩, fun h => ⟨h, rfl⟩⟩
  | @recycle q b' _ _ _ _ hfree _ =>
    refine .update rfl fun heq => ?_
    have hnone := hinv.lock_of_refcnt hfree
    exact nomatch (heq ▸ hlock).symm.trans hnone
  | lock _ hfree =>
    refine .update rfl fun heq => ?_
    exact nomatch (heq ▸ hlock).symm.trans hfree
  | found => exact .refl _
  | read _ hinvalid =>
    refine .update rfl fun _ => ?_
    exact ⟨⟨rfl, rfl⟩, rfl, ⟨rfl, rfl⟩, fun h => nomatch hinvalid.symm.trans h⟩
  | modify hholds | pin hholds | write hholds | release hholds =>
    exact .update rfl fun heq => absurd heq (hholder hholds hne)

/-- The process of an event -/
def Event.proc : Event P → P
  | .bread p _ _ | .run p | .modify p _ _ | .pin p _ | .bwrite p _ | .brelse p _ _ => p

/-- A process that does nothing keeps its buffer. -/
theorem Move.holds (hinv : c.Inv) (hm : Move c e c') (h : c.holds p b) (he : e.proc = p → e = .run p) :
    c'.holds p b ∧ (c'.buf b).blockno = (c.buf b).blockno := by
  have hedited : e.edited p ≠ some b := by
    cases e with
    | bread | run => nofun
    | modify q | pin q | bwrite q | brelse q =>
      have hq : q ≠ p := fun hq => nomatch he hq
      rw [Event.edited, if_neg hq]
      nofun
  have hkept := hm.kept hinv h.2 hedited
  refine ⟨⟨?_, hkept.lock.trans h.2⟩, hkept.block.2⟩
  have hgo {q : P} {pc : Pc} (hq : q ≠ p) : Function.update c.pc q pc p = .idle := by
    rw [update_of_ne hq.symm, h.1]
  have hbusy {q : P} (hq : c.pc q ≠ .idle) : q ≠ p := by
    rintro rfl
    exact hq h.1
  cases hm with
  | hit | recycle | release => exact hgo fun hq => nomatch he hq
  | lock hwait => exact hgo (hbusy (by rw [hwait]; nofun))
  | found hload | read hload => exact hgo (hbusy (by rw [hload]; nofun))
  | drop hdrop => exact hgo (hbusy (by rw [hdrop]; nofun))
  | modify | pin | write => exact h.1

theorem Move.waits (hm : Move c e c') (hwait : c.pc p = .wait b) :
    c'.pc p = .wait b ∨
      (c'.buf b).lock = some p ∧ (c'.buf b).touched = false ∧ (c'.buf b).changed = false := by
  have hother : ∀ {q pc}, c.pc q ≠ .wait b → c'.pc = Function.update c.pc q pc →
      c'.pc p = .wait b := by
    intro q pc hq hpc
    rw [hpc, update_of_ne, hwait]
    rintro rfl
    exact hq hwait
  cases hm with
  | hit hidle | recycle hidle => exact .inl (hother (by rw [hidle]; nofun) rfl)
  | @lock q b' hq _ =>
    by_cases hqp : q = p
    · subst q
      obtain rfl : b' = b := Pc.wait.inj (hq.symm.trans hwait)
      refine .inr ?_
      change (Function.update c.buf b' _ b').lock = _ ∧ (Function.update c.buf b' _ b').touched = _ ∧
        (Function.update c.buf b' _ b').changed = _
      rw [update_self]
      exact ⟨rfl, rfl, rfl⟩
    · refine .inl ?_
      change Function.update c.pc q _ p = _
      rw [update_of_ne (Ne.symm hqp), hwait]
  | found hload | read hload => exact .inl (hother (by rw [hload]; nofun) rfl)
  | drop hdrop => exact .inl (hother (by rw [hdrop]; nofun) rfl)
  | modify | pin | write => exact .inl hwait
  | release hholds => exact .inl (hother (by rw [hholds.1]; nofun) rfl)

theorem Move.idle_of_edited (hm : Move c e c') (he : e.edited p = some b) : c.pc p = .idle := by
  have hproc : ∀ {q b'}, (if q = p then some b' else none) = some b → c.pc q = .idle →
      c.pc p = .idle := by
    intro q b' hq hidle
    split at hq
    next heq => exact heq ▸ hidle
    next => cases hq
  cases hm with
  | hit | recycle | lock | found | read | drop => cases he
  | modify hholds | pin hholds | write hholds | release hholds => exact hproc he hholds.1

/-- A buffer that is being loaded has not been changed. -/
def Loading (c : Bcache P) : Prop := ∀ p b, c.pc p = .load b → (c.buf b).touched = false

theorem Loading.move (h : c.Loading) (hinv : c.Inv) (hm : Move c e c') : c'.Loading := by
  intro p b hload
  by_cases hold : c.pc p = .load b
  · have hne : e.edited p ≠ some b := fun he => nomatch (hm.idle_of_edited he).symm.trans hold
    exact (hm.kept hinv (hinv.loads p b hold) hne).marks.1.trans (h p b hold)
  · -- The process has just locked the buffer.
    have hnot : ∀ {q pc}, c'.pc = Function.update c.pc q pc → pc = .load b := by
      intro q pc hpc
      by_cases hq : p = q
      · subst q
        rwa [hpc, update_self] at hload
      · rw [hpc, update_of_ne hq] at hload
        exact absurd hload hold
    cases hm with
    | hit | recycle | found | read | drop | release => exact nomatch hnot rfl
    | @lock q b' _ _ =>
      obtain rfl : b' = b := Pc.load.inj (hnot rfl)
      change (Function.update c.buf b' _ b').touched = false
      rw [update_self]
    | modify | pin | write => exact absurd hload hold

theorem Clean.move (h : c.Clean p b dev blockno) (hinv : c.Inv) (hm : Move c e c')
    (hne : e.edited p ≠ some b) : c'.Clean p b dev blockno := by
  obtain ⟨⟨rfl, rfl⟩, hwait | ⟨hlock, htouched, hchanged⟩⟩ := h
  · have huse : c.uses p b := hinv.works p b (by rw [hwait]; rfl)
    exact ⟨hm.carries (.inl (hinv.refcnt_pos huse)), hm.waits hwait⟩
  · have hkept := hm.kept hinv hlock hne
    exact ⟨hkept.block, .inr ⟨hkept.lock.trans hlock, hkept.marks.1.trans htouched,
      hkept.marks.2.trans hchanged⟩⟩

theorem Filled.move {data : Block} {written : Bool} (h : c.Filled p b dev blockno data written)
    (hinv : c.Inv) (hm : Move c e c') (hne : e.edited p ≠ some b) :
    c'.Filled p b dev blockno data written := by
  have hkept := hm.kept hinv h.lock hne
  obtain ⟨hvalid, hdata⟩ := hkept.data h.valid
  refine ⟨?_, hkept.lock.trans h.lock, hvalid, hdata.trans h.data, ?_⟩
  · exact ⟨hkept.block.1.trans h.carries.1, hkept.block.2.trans h.carries.2⟩
  · exact fun hw => hkept.marks.2.trans (h.written hw)

/-- Nobody but `p` calls `log_write` or `bwrite` for the block. -/
def Event.spares (e : Event P) (c : Bcache P) (p : P) (dev blockno : Nat) : Prop :=
  ∀ q b, e = .pin q b ∨ e = .bwrite q b → q ≠ p → ¬c.carries b dev blockno

omit [DecidableEq P] in
theorem Event.spares_of_ne (h : ∀ q b, e ≠ .pin q b ∧ e ≠ .bwrite q b) : e.spares c p dev blockno := by
  rintro q b (he | he)
  · exact absurd he (h q b).1
  · exact absurd he (h q b).2

theorem Settled.move (h : c.Settled p dev blockno) (hinv : c.Inv) (hm : Move c e c')
    (hspares : e.spares c p dev blockno) : c'.Settled p dev blockno := by
  cases hm with
  | @hit q b _ _ | @read q b _ _ | @drop q b _ => exact h.update rfl ⟨rfl, rfl⟩ fun hc q => h b q hc
  | @recycle q b' dev' blockno' _ hmissing hfree _ =>
    intro b q' hc hlock hq htouched
    by_cases heq : b = b'
    · subst b
      have hself : ((c.recycle q b' dev' blockno').buf b').lock = (c.buf b').lock := by
        change (Function.update c.buf b' _ b').lock = _
        rw [update_self]
      rw [hself, hinv.lock_of_refcnt hfree] at hlock
      cases hlock
    · have hother : (c.recycle q b' dev' blockno').buf b = c.buf b := update_of_ne heq ..
      rw [carries, hother] at hc
      rw [hother] at hlock htouched ⊢
      exact h b q' hc hlock hq htouched
  | @lock q b _ _ => exact h.update rfl ⟨rfl, rfl⟩ fun _ _ _ _ htouched => by cases htouched
  | found => exact h
  | modify => exact h.update rfl ⟨rfl, rfl⟩ fun _ _ _ _ _ => rfl
  | @pin q b hholds =>
    refine h.update rfl ⟨rfl, rfl⟩ fun hc q' hlock hq' _ => ?_
    obtain rfl : q = q' := Option.some.inj (hholds.2.symm.trans hlock)
    exact absurd hc (hspares q b (.inl rfl) hq')
  | @write q b hholds =>
    refine h.update rfl ⟨rfl, rfl⟩ fun hc q' hlock hq' _ => ?_
    obtain rfl : q = q' := Option.some.inj (hholds.2.symm.trans hlock)
    exact absurd hc (hspares q b (.inr rfl) hq')
  | release => exact h.update rfl ⟨rfl, rfl⟩ fun _ _ hlock => by cases hlock

theorem Settled.released_eq (h : c.Settled p dev blockno) (hinv : c.Inv) (hcoh : c.Coherent)
    (hm : Move c e c') (hcareful : c.Careful e) (hp : ∀ b record, e ≠ .brelse p b record) :
    c'.released dev blockno = c.released dev blockno := by
  cases hm with
  | @release q b record hholds =>
    cases record with
    | false => rfl
    | true =>
      by_cases hc : c.carries b dev blockno
      · have hq : q ≠ p := fun heq => hp b true (by rw [heq])
        have huntouched : (c.buf b).touched = false := by
          by_contra htouched
          have := h b q hc hholds.2 hq (Bool.eq_true_of_not_eq_false htouched)
          exact nomatch hcareful.1.symm.trans this
        have hdata := (hcoh.inStep hinv (hinv.locks q b hholds.2)).data
          (hinv.valid_of_holds hholds) (.inr huntouched)
        obtain ⟨rfl, rfl⟩ := hc
        exact (update_block_self ..).trans hdata
      · exact update_block_of_not_carries hc
  | hit | recycle | lock | found | read | drop | modify | pin | write => rfl

theorem Move.of_bget (hinv : c.Inv) (hidle : c.pc p = .idle)
    (hget : c.bget p dev blockno = .next (b, c')) :
    Move c (.bread p dev blockno) c' ∧ c'.Clean p b dev blockno := by
  rcases bget_cases hinv.toShape hget with ⟨⟨rfl, rfl⟩, hfirst, rfl⟩ | ⟨hmissing, hfree, hclean, rfl⟩
  · have hm : Move c _ (c.hit p b) := .hit hidle hfirst
    refine ⟨hm, (carries_iff (c := c) rfl ?_ b _ _).mpr ⟨rfl, rfl⟩, .inl (update_self ..)⟩
    exact ⟨rfl, rfl⟩
  · refine ⟨.recycle hidle hmissing hfree hclean, ?_, .inl (update_self ..)⟩
    have hself : (c.recycle p b dev blockno).buf b = _ := update_self ..
    rw [Bcache.carries, hself]
    exact ⟨rfl, rfl⟩

section

variable (h : c.Clean p b dev blockno)
include h

omit [DecidableEq P] in
theorem Clean.holds (hidle : c.pc p = .idle) : c.holds p b := by
  rcases h.2 with hwait | hlock
  · exact nomatch hidle.symm.trans hwait
  · exact ⟨hidle, hlock.1⟩

omit [DecidableEq P] in
theorem Clean.data (hinv : c.Inv) (hcoh : c.Coherent)
    (hidle : c.pc p = .idle) : (c.buf b).data = c.released dev blockno := by
  have hholds := h.holds hidle
  obtain ⟨⟨rfl, rfl⟩, hwait | ⟨-, htouched, -⟩⟩ := h
  · exact nomatch hidle.symm.trans hwait
  · exact (hcoh.inStep hinv (hinv.locks p b hholds.2)).data (hinv.valid_of_holds hholds)
      (.inr htouched)

omit [DecidableEq P] in
theorem Clean.careful (hidle : c.pc p = .idle) :
    c.Careful (.brelse p b true) := by
  rcases h.2 with hwait | hlock
  · exact nomatch hidle.symm.trans hwait
  · exact ⟨hlock.2.2, nofun⟩

theorem Clean.released_eq (hinv : c.Inv) (hcoh : c.Coherent) (hidle : c.pc p = .idle)
    (hm : Move c (.brelse p b true) c') : c'.released = c.released := by
  have hdata := h.data hinv hcoh hidle
  obtain ⟨rfl, rfl⟩ := h.1
  cases hm
  funext dev' blockno'
  by_cases hc : c.carries b dev' blockno'
  · obtain ⟨rfl, rfl⟩ := hc
    exact (update_block_self ..).trans hdata
  · exact update_block_of_not_carries hc

end

theorem Filled.of_modify {data : Block} (hinv : c.Inv) (hm : Move c (.modify p b data) c')
    (hc : c.carries b dev blockno) :
    c'.Filled p b dev blockno data false ∧ c'.released = c.released := by
  cases hm with
  | modify hholds =>
    have hself : (c.modify b fun x => { x with data := data, touched := true, changed := true }).buf
        b = _ := update_self ..
    refine ⟨⟨(carries_iff (c := c) rfl ?_ b _ _).mpr hc, ?_, ?_, ?_, nofun⟩, rfl⟩
    · exact ⟨rfl, rfl⟩
    · rw [hself]
      exact hholds.2
    · rw [hself]
      exact hinv.valid_of_holds hholds
    · rw [hself]

theorem Filled.bwrite {data : Block} {written : Bool} (h : c.Filled p b dev blockno data written)
    (hm : Move c (.bwrite p b) c') :
    c'.Filled p b dev blockno data true ∧ c'.released = c.released := by
  cases hm with
  | write hholds =>
    have hself : (c.modify b fun x =>
        { x with dirty := false, valid := true, changed := false }).buf b = _ :=
      update_self ..
    refine ⟨⟨(carries_iff (c := c) rfl ?_ b _ _).mpr h.carries, ?_, ?_, ?_, fun _ => ?_⟩, rfl⟩
    · exact ⟨rfl, rfl⟩
    · exact (congrArg Entry.lock hself).trans h.lock
    · exact congrArg Entry.valid hself
    · exact (congrArg Entry.data hself).trans h.data
    · exact congrArg Entry.changed hself

theorem Filled.released {data : Block} {written : Bool} (h : c.Filled p b dev blockno data written)
    (hm : Move c (.brelse p b true) c') :
    c'.released dev blockno = data ∧
      ∀ dev' blockno', dev' ≠ dev ∨ blockno' ≠ blockno →
        c'.released dev' blockno' = c.released dev' blockno' := by
  obtain ⟨⟨rfl, rfl⟩, -, -, rfl, -⟩ := h
  cases hm
  refine ⟨update_block_self .., fun dev' blockno' hne => update_block_of_not_carries fun hc => ?_⟩
  rcases hne with hne | hne
  · exact hne hc.1.symm
  · exact hne hc.2.symm

omit [DecidableEq P] in
theorem Filled.careful {data : Block} (h : c.Filled p b dev blockno data true) :
    c.Careful (.brelse p b true) := ⟨h.written rfl, nofun⟩

end Bcache

end Xv6
