import Xv6.Bio.Structure

/-!
# The buffers and the disk

A buffer that is not locked has the data with which its block was last released, and so has the disk
unless the buffer is dirty.  Every step of the cache keeps this up, as long as changed data are
released only after `log_write` or `bwrite`, and a release that is not recorded is one of the data
last released.
-/

namespace Xv6

open Function (update_of_ne update_self)

/-- What holds of the buffer of a block, given the data on disk and the data last released -/
structure Bio.Entry.InStep {P : Type} (x : Entry P) (disk last : Block) : Prop where
  unread : x.valid = false → disk = last
  data : x.valid = true → x.lock = none ∨ x.touched = false → x.data = last
  disk : x.valid = true → x.dirty = false → x.lock = none ∨ x.changed = false → disk = x.data

namespace Bcache

open Bio

variable {P : Type} {c c' : Bcache P} {e : Event P} {p : P} {b : Buf}

/-- The data last released for the block of a buffer -/
def last (c : Bcache P) (b : Buf) : Block := c.released (c.buf b).dev (c.buf b).blockno

/-- The data on disk for the block of a buffer -/
def onDisk (c : Bcache P) (b : Buf) : Block := c.disk (c.buf b).dev (c.buf b).blockno

structure Coherent (c : Bcache P) : Prop where
  uncached : ∀ dev blockno, (∀ b, c.carries b dev blockno → c.fresh b) →
    c.disk dev blockno = c.released dev blockno
  cached : ∀ b, ¬c.fresh b → (c.buf b).InStep (c.onDisk b) (c.last b)

theorem Coherent.touch (h : c.Coherent) (hshape : c.Shape) {x : Entry P}
    (hbuf : c'.buf = Function.update c.buf b x)
    (hsame : x.dev = (c.buf b).dev ∧ x.blockno = (c.buf b).blockno) (hb : ¬c.fresh b)
    (hb' : ¬c'.fresh b)
    (hdisk : ∀ dev blockno, ¬c.carries b dev blockno → c'.disk dev blockno = c.disk dev blockno)
    (hreleased : ∀ dev blockno, ¬c.carries b dev blockno →
      c'.released dev blockno = c.released dev blockno)
    (hx : x.InStep (c'.disk x.dev x.blockno) (c'.released x.dev x.blockno)) : c'.Coherent := by
  have hfresh := fresh_iff hbuf hb hb'
  refine ⟨?_, ?_⟩
  · intro dev blockno hall
    have hold : ∀ b', c.carries b' dev blockno → c.fresh b' := fun b' hc =>
      (hfresh b').mp (hall b' ((carries_iff hbuf hsame ..).mpr hc))
    have hnot : ¬c.carries b dev blockno := fun hc => hb (hold b hc)
    rw [hdisk dev blockno hnot, hreleased dev blockno hnot]
    exact h.uncached dev blockno hold
  · intro b' hused
    by_cases heq : b' = b
    · subst b'
      rw [onDisk, last, hbuf, update_self]
      exact hx
    · have hother : c'.buf b' = c.buf b' := by rw [hbuf, update_of_ne heq]
      have hold := mt (hfresh b').mpr hused
      have hnot : ¬c.carries b (c.buf b').dev (c.buf b').blockno := fun hc =>
        heq (hshape.unique b' b _ _ hold hb ⟨rfl, rfl⟩ hc)
      rw [onDisk, last, hother, hdisk _ _ hnot, hreleased _ _ hnot]
      exact h.cached b' hold

/-- Data are released only after they were handed to `log_write` or `bwrite`. -/
def Careful (c : Bcache P) : Event P → Prop
  | .brelse _ b record => (c.buf b).changed = false ∧ (record = false → (c.buf b).data = c.last b)
  | _ => True

theorem update_block_self (f : Nat → Nat → Block) (v : Block) (dev blockno : Nat) :
    Function.update f dev (Function.update (f dev) blockno v) dev blockno = v := by
  rw [update_self, update_self]

theorem update_block_of_not_carries {f : Nat → Nat → Block} {v : Block} {dev blockno : Nat}
    (h : ¬c.carries b dev blockno) :
    Function.update f (c.buf b).dev (Function.update (f (c.buf b).dev) (c.buf b).blockno v) dev
      blockno = f dev blockno := by
  by_cases hdev : dev = (c.buf b).dev
  · subst dev
    rw [update_self]
    exact update_of_ne (fun heq => h ⟨rfl, heq.symm⟩) ..
  · rw [update_of_ne hdev]

variable [DecidableEq P]

theorem Coherent.hit (h : c.Coherent) (hshape : c.Shape) (hfirst : c.First b) :
    (c.hit p b).Coherent := by
  have hbuf := c.buf_hit p b
  have hnew := c.not_fresh_hit p b
  by_cases hb : c.fresh b
  · -- The disk is up to date for block 0 of device 0, as no buffer was in use for it.
    obtain ⟨l, hl, hordered⟩ := hshape.linked
    have hzero : c.disk 0 0 = c.released 0 0 :=
      h.uncached 0 0 fun b' hc => hfirst.only_fresh hl hordered hb hc
    refine ⟨?_, ?_⟩
    · intro dev blockno hall
      refine h.uncached dev blockno fun b' hc => ?_
      have hc' := (carries_iff hbuf ⟨rfl, rfl⟩ b' dev blockno).mpr hc
      by_cases heq : b' = b
      · exact heq ▸ hb
      · exact (fresh_of_ne hbuf heq).mp (hall b' hc')
    · intro b' hused
      by_cases heq : b' = b
      · subst b'
        have hinvalid := hb.2.2
        rw [onDisk, last, hbuf, update_self]
        refine ⟨fun _ => ?_, ?_, ?_⟩
        · change c.disk (c.buf b).dev (c.buf b).blockno = c.released (c.buf b).dev (c.buf b).blockno
          rw [hb.1.1, hb.1.2]
          exact hzero
        · exact fun hvalid => nomatch hinvalid.symm.trans hvalid
        · exact fun hvalid => nomatch hinvalid.symm.trans hvalid
      · have hother : (c.hit p b).buf b' = c.buf b' := update_of_ne heq ..
        rw [onDisk, last, hother]
        exact h.cached b' (mt (fresh_of_ne hbuf heq).mpr hused)
  · have hold := h.cached b hb
    exact h.touch hshape hbuf ⟨rfl, rfl⟩ hb hnew (fun _ _ _ => rfl) (fun _ _ _ => rfl)
      ⟨hold.unread, hold.data, hold.disk⟩

theorem Coherent.recycle (h : c.Coherent) (hinv : c.Inv) {dev blockno : Nat}
    (hmissing : ∀ b', ¬c.carries b' dev blockno) (hfree : (c.buf b).refcnt = 0)
    (hclean : (c.buf b).dirty = false) : (c.recycle p b dev blockno).Coherent := by
  have hself := c.buf_recycle p b dev blockno
  have hother : ∀ b', b' ≠ b → (c.recycle p b dev blockno).buf b' = c.buf b' :=
    fun b' hb => update_of_ne hb ..
  have hfresh : ∀ {b'}, b' ≠ b → ((c.recycle p b dev blockno).fresh b' ↔ c.fresh b') :=
    fun hb => fresh_of_ne rfl hb
  have hlock := hinv.lock_of_refcnt hfree
  -- The disk is up to date for the block that the buffer carried.
  have hleft : ¬c.fresh b → c.onDisk b = c.last b := by
    intro hused
    have hold := h.cached b hused
    cases hvalid : (c.buf b).valid with
    | false => exact hold.unread hvalid
    | true => exact (hold.disk hvalid hclean (.inl hlock)).trans (hold.data hvalid (.inl hlock))
  refine ⟨?_, ?_⟩
  · intro dev' blockno' hall
    change c.disk dev' blockno' = c.released dev' blockno'
    by_cases hb : c.carries b dev' blockno' ∧ ¬c.fresh b
    · obtain ⟨⟨rfl, rfl⟩, hused⟩ := hb
      exact hleft hused
    · refine h.uncached dev' blockno' fun b' hc => ?_
      by_cases heq : b' = b
      · subst b'
        by_contra hused
        exact hb ⟨hc, hused⟩
      · refine (hfresh heq).mp (hall b' ?_)
        rw [carries, hother b' heq]
        exact hc
  · intro b' hused
    by_cases heq : b' = b
    · subst b'
      rw [onDisk, last, hself]
      refine ⟨fun _ => ?_, by simp, by simp⟩
      exact h.uncached dev blockno fun b' hc => absurd hc (hmissing b')
    · have hold := mt (hfresh heq).mpr hused
      rw [onDisk, last, hother b' heq]
      exact h.cached b' hold

omit [DecidableEq P] in
theorem Coherent.work (h : c.Coherent) (hinv : c.Inv) (huse : c.uses p b) {x : Entry P}
    (hbuf : c'.buf = Function.update c.buf b x)
    (hsame : x.dev = (c.buf b).dev ∧ x.blockno = (c.buf b).blockno)
    (hrefcnt : x.refcnt = (c.buf b).refcnt)
    (hdisk : ∀ dev blockno, ¬c.carries b dev blockno → c'.disk dev blockno = c.disk dev blockno)
    (hreleased : ∀ dev blockno, ¬c.carries b dev blockno →
      c'.released dev blockno = c.released dev blockno)
    (hx : x.InStep (c'.disk x.dev x.blockno) (c'.released x.dev x.blockno)) : c'.Coherent := by
  have hpos := hinv.refcnt_pos huse
  refine h.touch hinv.toShape hbuf hsame (not_fresh_of_refcnt hpos) (not_fresh_of_refcnt ?_) hdisk
    hreleased hx
  rw [hbuf, update_self, hrefcnt]
  exact hpos

omit [DecidableEq P] in
theorem Coherent.inStep (h : c.Coherent) (hinv : c.Inv) (huse : c.uses p b) :
    (c.buf b).InStep (c.onDisk b) (c.last b) :=
  h.cached b (not_fresh_of_refcnt (hinv.refcnt_pos huse))

theorem Coherent.move (h : c.Coherent) (hinv : c.Inv) (hm : Move c e c') (he : c.Careful e) :
    c'.Coherent := by
  cases hm with
  | hit _ hfirst => exact h.hit hinv.toShape hfirst
  | recycle _ hmissing hfree hclean => exact h.recycle hinv hmissing hfree hclean
  | @lock p b hwait hfree =>
    have huse : c.uses p b := hinv.works p b (by rw [hwait]; rfl)
    have hold := h.inStep hinv huse
    refine h.work hinv huse rfl ⟨rfl, rfl⟩ rfl (fun _ _ _ => rfl) (fun _ _ _ => rfl) ?_
    refine ⟨hold.unread, fun hvalid _ => ?_, fun hvalid hdirty _ => ?_⟩
    · exact hold.data hvalid (.inl hfree)
    · exact hold.disk hvalid hdirty (.inl hfree)
  | found => exact ⟨h.uncached, h.cached⟩
  | @read p b hload hinvalid =>
    have huse : c.uses p b := hinv.works p b (by rw [hload]; rfl)
    have hold := h.inStep hinv huse
    refine h.work hinv huse rfl ⟨rfl, rfl⟩ rfl (fun _ _ _ => rfl) (fun _ _ _ => rfl) ?_
    exact ⟨nofun, fun _ _ => hold.unread hinvalid, fun _ _ _ => rfl⟩
  | @drop p b hdrop =>
    have huse : c.uses p b := hinv.works p b (by rw [hdrop]; rfl)
    have hold := h.inStep hinv huse
    have hvalid := (hinv.drops p b hdrop).2
    refine h.touch hinv.toShape (c.buf_drop p b) ⟨rfl, rfl⟩ ?_ (not_fresh_drop hvalid)
      (fun _ _ _ => rfl) (fun _ _ _ => rfl) ⟨hold.unread, hold.data, hold.disk⟩
    exact fun hf => nomatch hf.2.2.symm.trans hvalid
  | @modify p b data hholds =>
    refine h.work hinv (hinv.locks p b hholds.2) rfl ⟨rfl, rfl⟩ rfl (fun _ _ _ => rfl)
      (fun _ _ _ => rfl) ?_
    -- The buffer is locked and marked.
    have hnot : ∀ {mark : Bool}, mark = true → ¬((c.buf b).lock = none ∨ mark = false) := by
      rintro mark rfl (hnone | hfalse)
      · exact nomatch hholds.2.symm.trans hnone
      · cases hfalse
    refine ⟨?_, fun _ hlock => ?_, fun _ _ hlock => ?_⟩
    · exact fun hinvalid => nomatch (hinv.valid_of_holds hholds).symm.trans hinvalid
    · exact absurd hlock (hnot rfl)
    · exact absurd hlock (hnot rfl)
  | @pin p b hholds =>
    have huse := hinv.locks p b hholds.2
    have hold := h.inStep hinv huse
    refine h.work hinv huse rfl ⟨rfl, rfl⟩ rfl (fun _ _ _ => rfl) (fun _ _ _ => rfl) ?_
    exact ⟨hold.unread, hold.data, fun _ => nofun⟩
  | @write p b hholds =>
    have huse := hinv.locks p b hholds.2
    have hold := h.inStep hinv huse
    refine h.work hinv huse rfl ⟨rfl, rfl⟩ rfl (fun _ _ => update_block_of_not_carries)
      (fun _ _ _ => rfl) ?_
    exact ⟨nofun, fun _ => hold.data (hinv.valid_of_holds hholds), fun _ _ _ => update_block_self ..⟩
  | @release p b record hholds =>
    obtain ⟨hchanged, hsame⟩ := he
    have huse := hinv.locks p b hholds.2
    have hold := h.inStep hinv huse
    have hvalid := hinv.valid_of_holds hholds
    have hdisk : (c.buf b).dirty = false → c.onDisk b = (c.buf b).data :=
      fun hdirty => hold.disk hvalid hdirty (.inr hchanged)
    cases record with
    | false =>
      refine h.work hinv huse rfl ⟨rfl, rfl⟩ rfl (fun _ _ _ => rfl) (fun _ _ _ => rfl) ?_
      exact ⟨hold.unread, fun _ _ => hsame rfl, fun _ hdirty _ => hdisk hdirty⟩
    | true =>
      refine h.work hinv huse rfl ⟨rfl, rfl⟩ rfl (fun _ _ _ => rfl)
        (fun _ _ => update_block_of_not_carries) ?_
      refine ⟨?_, fun _ _ => ?_, fun _ hdirty _ => hdisk hdirty⟩
      · exact fun hinvalid => nomatch hvalid.symm.trans hinvalid
      · exact (update_block_self ..).symm

end Bcache

end Xv6
