import Xv6.Ide.Driver
import Mathlib.Data.Fintype.Card

/-!
# The interrupt-driven driver does what the copying one does

A request counts as performed when `ideintr` takes it off the queue.  With that, every run of `ide.c`
is followed by one of `memide.c`: the buffers are the same all along, and so is disk 1, except for a
block that the drive has written and not yet reported.
-/

namespace Xv6

open Function (update_of_ne update_self)

namespace Ide

variable {P : Type}

/-- `iderw` may be called by `p` for the buffer. -/
structure Entry.Request (x : Entry P) (p : P) : Prop where
  lock : x.lock = some p
  dev : x.dev = 1
  blockno : x.blockno < FSSIZE
  todo : x.done = false

instance {P : Type} [DecidableEq P] (x : Entry P) (p : P) : Decidable (x.Request p) :=
  decidable_of_iff (x.lock = some p ∧ x.dev = 1 ∧ x.blockno < FSSIZE ∧ x.done = false)
    ⟨fun ⟨h₁, h₂, h₃, h₄⟩ => ⟨h₁, h₂, h₃, h₄⟩, fun h => ⟨h.lock, h.dev, h.blockno, h.todo⟩⟩

/-- The calls of `iderw` are for buffers that the caller has locked, within disk 1, and with something
to do. -/
def Permitted (s : Ide P) : Event P → Prop
  | .iderw p b => (s.buf b).Request p
  | _ => True

instance {P : Type} [DecidableEq P] (s : Ide P) : (a : Event P) → Decidable (s.Permitted a)
  | .iderw p b => inferInstanceAs (Decidable ((s.buf b).Request p))
  | .lock .. | .unlock .. | .change .. | .wake _ | .run _ | .complete | .ideintr => .isTrue trivial

/-- The drive works on the request for `b`, or has done so and not been asked for the result yet. -/
def Started (s : Ide P) (b : Buf) : Prop :=
  match s.drive.phase with
  | .idle => False
  | .busy c => c = command (s.buf b)
  | .ready data =>
    if (s.buf b).dirty then s.drive.disk 1 (s.buf b).blockno = (s.buf b).data
    else data = some (s.drive.disk 1 (s.buf b).blockno)

/-- The sector has been written by the drive, for a request that is still in the queue. -/
def Behind (s : Ide P) (n : Nat) : Prop :=
  ∃ b data, s.queue.head = some b ∧ s.drive.phase = .ready data ∧ (s.buf b).dirty = true ∧
    (s.buf b).blockno = n

/-- Where `memide.c` has a process. -/
def view (s : Ide P) (p : P) : Memide.Pc :=
  match (s.pc p).buf with
  | none => .idle
  | some b => if (s.buf b).done then .finished b else .called b

structure Agree (s : Ide P) (m : Memide P) : Prop where
  buf : m.buf = s.buf
  pc : m.pc = s.view
  disk : ∀ n, ¬s.Behind n → m.memdisk n = s.drive.disk 1 n

/-- What `memide.c` does in a step of `ide.c`. -/
def event (s : Ide P) : Event P → Option (Memide.Event P)
  | .lock p b => some (.lock p b)
  | .unlock p b => some (.unlock p b)
  | .change b dev blockno valid dirty data => some (.change b dev blockno valid dirty data)
  | .iderw p b => some (.call p b)
  | .ideintr => s.queue.head.bind fun b => (s.buf b).lock.map .iderw
  | .run p =>
    match s.pc p with
    | .woken b => if (s.buf b).done then some (.ret p) else none
    | _ => none
  | .wake _ | .complete => none

/-- The requests `q` are in the queue, and who waits has a request there or one that is finished. -/
structure Queued (s : Ide P) (q : List (P × Buf)) : Prop where
  disk1 : s.havedisk1 = true
  holds : s.queue.Holds (q.map Prod.snd)
  nodup : (q.map Prod.snd).Nodup
  log : s.requested = s.completed ++ q
  request : ∀ r ∈ q, (s.buf r.2).Request r.1 ∧ (s.pc r.1).buf = some r.2
  waits : ∀ p b, (s.pc p).buf = some b →
    (p, b) ∈ q ∨ s.pc p = .woken b ∧ (s.buf b).lock = some p ∧ (s.buf b).done = true

structure Inv (s : Ide P) (q : List (P × Buf)) : Prop extends s.Queued q where
  started : ∀ r ∈ q.head?, s.Started r.2
  idle : q = [] → s.drive.phase = .idle

variable {s s' : Ide P} {m : Memide P} {p : P} {b : Buf} {q : List (P × Buf)}

theorem registers_sector {x : Entry P} (h : x.blockno < FSSIZE) : (registers x).sector = x.blockno := by
  have hhigh : x.blockno / 2 ^ 24 % 16 = 0 := by simp only [FSSIZE] at h; omega
  have hselect : (0xe0 ||| (x.dev % 2) * 2 ^ 4 ||| 0) % 16 = 0 := by
    rcases Nat.mod_two_eq_zero_or_one x.dev with h | h <;> rw [h] <;> rfl
  simp only [Registers.sector, registers, hhigh, hselect]
  simp only [FSSIZE] at h
  omega

theorem registers_disk {x : Entry P} (hdev : x.dev = 1) (h : x.blockno < FSSIZE) :
    (registers x).disk = 1 := by
  have hhigh : x.blockno / 2 ^ 24 % 16 = 0 := by simp only [FSSIZE] at h; omega
  simp only [Registers.disk, registers, hhigh, hdev]
  decide

theorem Queued.lock_of_waits (h : s.Queued q) (hp : (s.pc p).buf = some b) :
    (s.buf b).lock = some p := by
  rcases h.waits p b hp with hmem | hdone
  · exact (h.request _ hmem).1.lock
  · exact hdone.2.1

theorem Queued.head (h : s.Queued q) (hhead : s.queue.head = some b) :
    ∃ p q', q = (p, b) :: q' := by
  cases q with
  | nil => exact nomatch hhead.symm.trans h.holds
  | cons r q' =>
    obtain ⟨p, b'⟩ := r
    have heq : b = b' := Option.some.inj (hhead.symm.trans h.holds.1)
    exact ⟨p, q', by rw [heq]⟩

theorem Queued.notMem_snd (h : s.Queued q) (hidle : ∀ p, (s.buf b).lock = some p → (s.pc p).buf = none) :
    b ∉ q.map Prod.snd := by
  intro hmem
  obtain ⟨⟨p, b'⟩, hr, rfl⟩ := List.mem_map.mp hmem
  obtain ⟨hreq, hpc⟩ := h.request _ hr
  rw [hidle p hreq.lock] at hpc
  cases hpc

theorem not_behind_of_ne (hphase : ∀ d, s.drive.phase ≠ .ready d) (n : Nat) :
    ¬s.Behind n := by
  rintro ⟨b, d, -, hd, -⟩
  exact hphase d hd

theorem Agree.pc_eq (h : s.Agree m) (p : P) : m.pc p = s.view p := congrFun h.pc p

theorem view_congr (hpc : (s'.pc p).buf = (s.pc p).buf)
    (hdone : ∀ b, (s.pc p).buf = some b → (s'.buf b).done = (s.buf b).done) : s'.view p = s.view p := by
  rw [view, view, hpc]
  cases hb : (s.pc p).buf with
  | none => rfl
  | some b =>
    simp only
    rw [hdone b hb]

theorem Agree.idle_iff (h : s.Agree m) : m.pc p = .idle ↔ s.pc p = .idle := by
  rw [h.pc_eq, view]
  cases s.pc p with
  | idle => simp [Pc.buf]
  | sleeping b | woken b => simp only [Pc.buf]; split <;> simp

section

variable {x : Entry P}

/-- Who may change a buffer does not change what somebody waits for. -/
theorem Queued.edit_buf {b' : Buf} (h : s.Queued q)
    (hidle : ∀ p, (s.buf b).lock = some p → (s.pc p).buf = none) (hp : (s.pc p).buf = some b') :
    (s.modify b x).buf b' = s.buf b' := by
  refine update_of_ne ?_ ..
  rintro rfl
  exact nomatch (hidle p (h.lock_of_waits hp)).symm.trans hp

theorem Queued.edit (h : s.Queued q)
    (hidle : ∀ p, (s.buf b).lock = some p → (s.pc p).buf = none) : (s.modify b x).Queued q := by
  refine { h with request := ?_, waits := ?_ }
  · intro r hr
    obtain ⟨hreq, hpc⟩ := h.request r hr
    exact ⟨h.edit_buf hidle hpc ▸ hreq, hpc⟩
  · intro p b' hp
    rw [h.edit_buf hidle hp]
    exact h.waits p b' hp

theorem Inv.edit (h : s.Inv q)
    (hidle : ∀ p, (s.buf b).lock = some p → (s.pc p).buf = none) : (s.modify b x).Inv q := by
  refine { h.toQueued.edit hidle with started := ?_, idle := h.idle }
  intro r hr
  rw [Started, h.edit_buf hidle (h.request r (List.mem_of_mem_head? hr)).2]
  exact h.started r hr

theorem Agree.edit (h : s.Agree m) (hq : s.Queued q)
    (hidle : ∀ p, (s.buf b).lock = some p → (s.pc p).buf = none) :
    (s.modify b x).Agree (m.modify b x) := by
  refine ⟨?_, ?_, ?_⟩
  · rw [Memide.modify, h.buf]
    rfl
  · funext p
    refine (h.pc_eq p).trans (Eq.symm ?_)
    exact view_congr rfl fun b' hp => by rw [hq.edit_buf hidle hp]
  · intro n hn
    refine h.disk n fun hbehind => hn ?_
    obtain ⟨b', data, hhead, hphase, hdirty, hno⟩ := hbehind
    obtain ⟨p, q', rfl⟩ := hq.head hhead
    have hbuf := hq.edit_buf (x := x) hidle (hq.request _ List.mem_cons_self).2
    exact ⟨b', data, hhead, hphase, hbuf ▸ hdirty, hbuf ▸ hno⟩

end

variable [DecidableEq P]

/-- The two machines after a step, where the second has taken the event that belongs to it -/
def Stays (s s' : Ide P) (m : Memide P) (a : Event P) : Prop :=
  ∃ q' m', s'.Inv q' ∧ Follows Memide.step m (s.event a) m' ∧ s'.Agree m'

section

variable (h : s.Inv q) (hm : s.Agree m)
include h hm

theorem stays_edit {a : Event P} {x : Option (Entry P)}
    (hidle : x ≠ none → ∀ p, (s.buf b).lock = some p → (s.pc p).buf = none)
    (hfollow : Follows Memide.step m (s.event a) = fun m' => m.edit b x = .next m')
    (hs : s.edit b x = .next s') : s.Stays s' m a := by
  cases x with
  | none => cases hs
  | some x =>
    cases hs
    refine ⟨q, m.modify b x, h.edit (hidle nofun), ?_, hm.edit h.toQueued (hidle nofun)⟩
    rw [hfollow]
    rfl

theorem stays_lock (hs : s.step (.lock p b) = .next s') :
    s.Stays s' m (.lock p b) := by
  rw [step] at hs
  split_ifs at hs with hp
  refine stays_edit h hm ?_ ?_ hs
  · intro hx p' hlock
    rw [Entry.lock?, hlock] at hx
    exact absurd rfl hx
  · funext m'
    rw [event, Follows, Memide.step, if_pos (hm.idle_iff.mpr hp), hm.buf]

theorem stays_unlock (hs : s.step (.unlock p b) = .next s') :
    s.Stays s' m (.unlock p b) := by
  rw [step] at hs
  split_ifs at hs with hp
  refine stays_edit h hm ?_ ?_ hs
  · intro hx p' hlock
    rw [Entry.unlock?, hlock] at hx
    by_cases heq : p' = p
    · rw [heq, hp]
      rfl
    · rw [if_neg (by simpa using heq)] at hx
      exact absurd rfl hx
  · funext m'
    rw [event, Follows, Memide.step, if_pos (hm.idle_iff.mpr hp), hm.buf]

theorem stays_change {dev blockno : Nat} {valid dirty : Bool} {data : Block}
    (hs : s.step (.change b dev blockno valid dirty data) = .next s') :
    s.Stays s' m (.change b dev blockno valid dirty data) := by
  rw [step] at hs
  refine stays_edit h hm ?_ ?_ hs
  · intro hx p hlock
    rw [Entry.change?, hlock] at hx
    cases hp : s.pc p with
    | idle => rfl
    | sleeping b' | woken b' => simp [hp] at hx
  · funext m'
    have hbusy : (fun p => decide (m.pc p ≠ .idle)) = fun p => decide (s.pc p ≠ .idle) := by
      funext p
      simp only [ne_eq, hm.idle_iff]
    rw [event, Follows, Memide.step, hm.buf, hbusy]

end

section

variable {c : Pc}

theorem Inv.move (h : s.Inv q) (hbuf : c.buf = (s.pc p).buf)
    (hwoken : ∀ b, s.pc p = .woken b → (s.buf b).done = true → c = .woken b) :
    ({ s with pc := Function.update s.pc p c } : Ide P).Inv q := by
  have hpc : ∀ p', (Function.update s.pc p c p').buf = (s.pc p').buf := by
    intro p'
    by_cases heq : p' = p
    · rw [heq, update_self, hbuf]
    · rw [update_of_ne heq]
  refine { h with request := ?_, waits := ?_ }
  · intro r hr
    exact ⟨(h.request r hr).1, (hpc r.1).trans (h.request r hr).2⟩
  · intro p' b hb
    rcases h.waits p' b ((hpc p').symm.trans hb) with hmem | ⟨hpcb, hlock, hdone⟩
    · exact .inl hmem
    · refine .inr ⟨?_, hlock, hdone⟩
      by_cases heq : p' = p
      · subst heq
        exact (update_self ..).trans (hwoken b hpcb hdone)
      · exact (update_of_ne heq ..).trans hpcb

/-- The views of the processes after one of them has moved on -/
theorem Agree.view_update (h : s.Agree m) {d : Memide.Pc}
    (hself : ({ s with pc := Function.update s.pc p c } : Ide P).view p = d) :
    Function.update m.pc p d = ({ s with pc := Function.update s.pc p c } : Ide P).view := by
  funext p'
  by_cases heq : p' = p
  · rw [heq, update_self, hself]
  · rw [update_of_ne heq, h.pc_eq]
    symm
    exact view_congr (congrArg Pc.buf (update_of_ne heq ..)) fun _ _ => rfl

theorem Agree.move (h : s.Agree m) (hbuf : c.buf = (s.pc p).buf) :
    ({ s with pc := Function.update s.pc p c } : Ide P).Agree m := by
  refine ⟨h.buf, ?_, h.disk⟩
  have hself : ({ s with pc := Function.update s.pc p c } : Ide P).view p = m.pc p := by
    rw [h.pc_eq]
    exact view_congr ((congrArg Pc.buf (update_self ..)).trans hbuf) fun _ _ => rfl
  exact (Function.update_eq_self p m.pc).symm.trans (h.view_update hself)

end

theorem stays_wake (h : s.Inv q) (hm : s.Agree m) (hs : s.step (.wake p) = .next s') :
    s.Stays s' m (.wake p) := by
  rw [step] at hs
  cases hp : s.pc p with
  | idle | woken b => rw [hp] at hs; cases hs
  | sleeping b =>
    rw [hp] at hs
    cases hs
    have hbuf : (Pc.woken b).buf = (s.pc p).buf := by rw [hp]; rfl
    refine ⟨q, m, h.move hbuf ?_, rfl, hm.move hbuf⟩
    intro b' hb'
    exact nomatch hp.symm.trans hb'

theorem Inv.ret (h : s.Inv q) (hp : (s.pc p).buf = some b) (hdone : (s.buf b).done = true) :
    ({ s with pc := Function.update s.pc p .idle } : Ide P).Inv q := by
  refine { h with request := ?_, waits := ?_ }
  · intro r hr
    obtain ⟨hreq, hpc⟩ := h.request r hr
    have hne : r.1 ≠ p := by
      rintro rfl
      obtain rfl : b = r.2 := Option.some.inj (hp.symm.trans hpc)
      exact nomatch hdone.symm.trans hreq.todo
    exact ⟨hreq, (congrArg Pc.buf (update_of_ne hne ..)).trans hpc⟩
  · intro p' b' hb'
    have hne : p' ≠ p := by
      rintro rfl
      simp [Pc.buf] at hb'
    simp only [update_of_ne hne] at hb' ⊢
    exact h.waits p' b' hb'

theorem Agree.ret (h : s.Agree m) :
    ({ s with pc := Function.update s.pc p .idle } : Ide P).Agree
      { m with pc := Function.update m.pc p .idle } :=
  ⟨h.buf, h.view_update (by simp [view, Pc.buf]), h.disk⟩

theorem stays_run (h : s.Inv q) (hm : s.Agree m) (hs : s.step (.run p) = .next s') :
    s.Stays s' m (.run p) := by
  rw [step] at hs
  cases hp : s.pc p with
  | idle | sleeping b => rw [hp] at hs; cases hs
  | woken b =>
    rw [hp] at hs
    injection hs with hs
    have hwaits : (s.pc p).buf = some b := by rw [hp]; rfl
    cases hdone : (s.buf b).done with
    | true =>
      rw [hdone, if_pos rfl] at hs
      subst hs
      refine ⟨q, _, h.ret hwaits hdone, ?_, hm.ret⟩
      have hview : m.pc p = .finished b := by
        rw [hm.pc_eq, view, hwaits]
        simp only
        rw [hdone, if_pos rfl]
      rw [event, hp]
      simp only
      rw [hdone, if_pos rfl, Follows, Memide.step, hview]
    | false =>
      -- woken up too early, and back to sleep
      rw [hdone, if_neg Bool.false_ne_true] at hs
      subst hs
      refine ⟨q, m, h.move hwaits.symm ?_, ?_, hm.move hwaits.symm⟩
      · intro b' hb' hdone'
        obtain rfl : b = b' := by
          rw [hp] at hb'
          injection hb'
        exact nomatch hdone.symm.trans hdone'
      · rw [event, hp]
        simp only
        rw [hdone]
        rfl

omit [DecidableEq P] in
theorem idestart_eq (hblockno : (s.buf b).blockno < FSSIZE) (hidle : s.drive.phase = .idle) :
    s.idestart b = .next { s with drive.phase := .busy (command (s.buf b)) } := by
  rw [idestart, hidle]
  exact if_neg (Nat.not_le.mpr hblockno)

omit [DecidableEq P] in
theorem Queued.start (h : s.Queued ((p, b) :: q)) (hidle : s.drive.phase = .idle) :
    ∃ s', s.idestart b = .next s' ∧ s'.Inv ((p, b) :: q) ∧ ∀ m, s.Agree m → s'.Agree m := by
  refine ⟨_, idestart_eq (h.request (p, b) (by simp)).1.blockno hidle, ?_, ?_⟩
  · refine { h with started := ?_, idle := nofun }
    intro r hr
    obtain rfl : (p, b) = r := by simpa using hr
    rfl
  · intro m hm
    refine ⟨hm.buf, hm.pc, ?_⟩
    intro n hn
    exact hm.disk n (not_behind_of_ne (by rw [hidle]; nofun) n)

theorem Queued.append (h : s.Queued q) (hp : s.pc p = .idle) (hreq : (s.buf b).Request p) :
    ∃ queue, s.queue.push NBUF b = some queue ∧
      ({ s with
        queue := queue
        pc := Function.update s.pc p (.sleeping b)
        requested := s.requested ++ [(p, b)] } : Ide P).Queued (q ++ [(p, b)]) := by
  have hnot : b ∉ q.map Prod.snd := by
    refine h.notMem_snd fun p' hlock => ?_
    obtain rfl : p = p' := Option.some.inj (hreq.lock.symm.trans hlock)
    rw [hp]
    rfl
  have hlen : (q.map Prod.snd).length ≤ NBUF := by
    simpa using h.nodup.length_le_card
  obtain ⟨queue, hpush, hholds⟩ := h.holds.push h.nodup hnot hlen
  refine ⟨queue, hpush, { h with holds := ?_, nodup := ?_, log := ?_, request := ?_, waits := ?_ }⟩
  · simpa using hholds
  · rw [List.map_append, List.nodup_append]
    refine ⟨h.nodup, by simp, ?_⟩
    rintro b' hb' b'' hb'' rfl
    obtain rfl : b' = b := by simpa using hb''
    exact hnot hb'
  · rw [h.log, List.append_assoc]
  · intro r hr
    rcases List.mem_append.mp hr with hr | hr
    · obtain ⟨hreq', hpc⟩ := h.request r hr
      have hne : r.1 ≠ p := by
        rintro rfl
        rw [hp] at hpc
        cases hpc
      exact ⟨hreq', (congrArg Pc.buf (update_of_ne hne ..)).trans hpc⟩
    · obtain rfl : r = (p, b) := by simpa using hr
      refine ⟨hreq, ?_⟩
      simp only [update_self]
      rfl
  · intro p' b' hb'
    by_cases heq : p' = p
    · subst heq
      obtain rfl : b = b' := by simpa [Pc.buf] using hb'
      exact .inl (by simp)
    · simp only [update_of_ne heq] at hb' ⊢
      rcases h.waits p' b' hb' with hmem | hdone
      · exact .inl (List.mem_append_left _ hmem)
      · exact .inr hdone

theorem Agree.append {queue : Queue Buf} {requested : List (P × Buf)} (h : s.Agree m)
    (hreq : (s.buf b).Request p) (hhead : ∀ b', s.queue.head = some b' → queue.head = some b') :
    ({ s with
      queue := queue
      pc := Function.update s.pc p (.sleeping b)
      requested := requested } : Ide P).Agree { m with pc := Function.update m.pc p (.called b) } := by
  refine ⟨h.buf, ?_, ?_⟩
  · exact h.view_update (by simp [view, Pc.buf, hreq.todo])
  · intro n hn
    refine h.disk n ?_
    rintro ⟨b', data, hb', hrest⟩
    exact hn ⟨b', data, hhead b' hb', hrest⟩

theorem Inv.iderw (h : s.Inv q) (hm : s.Agree m) (hp : s.pc p = .idle) (hreq : (s.buf b).Request p) :
    ∃ s', s.iderw p b = .next s' ∧ s'.Inv (q ++ [(p, b)]) ∧
      s'.Agree { m with pc := Function.update m.pc p (.called b) } := by
  obtain ⟨queue, hpush, hqueued⟩ := h.toQueued.append hp hreq
  have hcall : s.iderw p b = if queue.head = some b then
      ({ s with
        queue := queue
        pc := Function.update s.pc p (.sleeping b)
        requested := s.requested ++ [(p, b)] } : Ide P).idestart b
      else .next { s with
        queue := queue
        pc := Function.update s.pc p (.sleeping b)
        requested := s.requested ++ [(p, b)] } := by
    rw [Ide.iderw, hpush, h.disk1]
    simp [hreq.lock, hreq.todo]
  cases q with
  | nil =>
    -- the queue was empty and the drive idle: this request is started
    obtain ⟨s', hstart, hinv, hagree⟩ := hqueued.start (h.idle rfl)
    rw [hcall, if_pos hqueued.holds.1]
    refine ⟨s', hstart, hinv, hagree _ (hm.append hreq ?_)⟩
    intro b' hb'
    exact nomatch hb'.symm.trans h.holds
  | cons r q =>
    have hhead : queue.head = some r.2 := hqueued.holds.1
    have hne : r.2 ≠ b := by
      intro heq
      have hnodup := hqueued.nodup
      rw [List.cons_append, List.map_cons, List.nodup_cons] at hnodup
      exact hnodup.1 (by simp [heq])
    rw [hcall, if_neg (by rw [hhead]; simpa using hne)]
    refine ⟨_, rfl, { hqueued with started := ?_, idle := ?_ }, hm.append hreq ?_⟩
    · intro r' hr'
      exact h.started r' hr'
    · intro hnil
      simp at hnil
    · intro b' hb'
      rw [hhead, ← hb']
      exact h.holds.1.symm

theorem stays_iderw (h : s.Inv q) (hm : s.Agree m) (hok : s.Permitted (.iderw p b))
    (hs : s.step (.iderw p b) = .next s') : s.Stays s' m (.iderw p b) := by
  rw [step] at hs
  split_ifs at hs with hp
  obtain ⟨t, ht, hinv, hagree⟩ := h.iderw hm hp hok
  cases ht.symm.trans hs
  refine ⟨_, _, hinv, ?_, hagree⟩
  rw [event, Follows, Memide.step, if_pos (hm.idle_iff.mpr hp)]

theorem stays_complete (h : s.Inv q) (hm : s.Agree m) (hs : s.step .complete = .next s') :
    s.Stays s' m .complete := by
  rw [step] at hs
  cases q with
  | nil =>
    rw [Drive.complete, h.idle rfl] at hs
    cases hs
  | cons r q =>
    have hstarted := h.started r (by simp)
    obtain ⟨hreq, -⟩ := h.request r (by simp)
    rw [Started] at hstarted
    cases hphase : s.drive.phase with
    | idle => rw [hphase] at hstarted; exact hstarted.elim
    | ready data => rw [Drive.complete, hphase] at hs; cases hs
    | busy c =>
      rw [hphase] at hstarted
      have hc : c = command (s.buf r.2) := hstarted
      have hsector := registers_sector hreq.blockno
      have hdisk := registers_disk hreq.dev hreq.blockno
      have hbefore : ∀ n, m.memdisk n = s.drive.disk 1 n :=
        fun n => hm.disk n (not_behind_of_ne (by rw [hphase]; nofun) n)
      refine ⟨r :: q, m, ?_⟩
      cases hdirty : (s.buf r.2).dirty with
      | true =>
        rw [Drive.complete, hphase, hc, command, hdirty, if_pos rfl] at hs
        simp only [hsector, hdisk] at hs
        cases hs
        refine ⟨{ h with started := ?_, idle := nofun }, rfl, hm.buf, hm.pc, ?_⟩
        · intro r' hr'
          obtain rfl : r = r' := by simpa using hr'
          simp [Started, hdirty]
        · intro n hn
          have hne : n ≠ (s.buf r.2).blockno := by
            rintro rfl
            exact hn ⟨r.2, none, h.holds.1, rfl, hdirty, rfl⟩
          simp [hne, hbefore]
      | false =>
        rw [Drive.complete, hphase, hc, command, hdirty, if_neg Bool.false_ne_true] at hs
        simp only [hsector, hdisk] at hs
        cases hs
        refine ⟨{ h with started := ?_, idle := nofun }, rfl, hm.buf, hm.pc, fun n _ => hbefore n⟩
        intro r' hr'
        obtain rfl : r = r' := by simpa using hr'
        simp [Started, hdirty]

section

variable {data : Option Block}

section

omit [DecidableEq P]

theorem retire_pc_buf (p' : P) : ((s.retire b data).pc p').buf = (s.pc p').buf := by
  change (if s.pc p' = .sleeping b then Pc.woken b else s.pc p').buf = _
  split
  case isTrue h =>
    rw [h]
    rfl
  case isFalse => rfl

theorem retire_buf_of_ne {b' : Buf} (h : b' ≠ b) : (s.retire b data).buf b' = s.buf b' :=
  update_of_ne h ..

theorem retire_buf_self : (s.retire b data).buf b = s.finish b data :=
  update_self ..

theorem Queued.retire (h : s.Queued ((p, b) :: q)) : (s.retire b data).Queued q := by
  obtain ⟨hreq, hpc⟩ := h.request (p, b) (by simp)
  have hnot : b ∉ q.map Prod.snd := (List.nodup_cons.mp h.nodup).1
  refine { h with
    holds := h.holds.pop
    nodup := (List.nodup_cons.mp h.nodup).2
    log := ?_
    request := ?_
    waits := ?_ }
  · change s.requested = s.completed ++ ((s.buf b).lock.map fun p => (p, b)).toList ++ q
    rw [hreq.lock, List.append_assoc]
    exact h.log
  · intro r hr
    obtain ⟨hreq', hpc'⟩ := h.request r (List.mem_cons_of_mem _ hr)
    have hne : r.2 ≠ b := by
      rintro rfl
      exact hnot (List.mem_map_of_mem hr)
    rw [retire_buf_of_ne hne, retire_pc_buf]
    exact ⟨hreq', hpc'⟩
  · intro p' b' hb'
    rw [retire_pc_buf] at hb'
    rcases h.waits p' b' hb' with hmem | ⟨hwoken, hlock, hdone⟩
    · rcases List.mem_cons.mp hmem with heq | hmem
      · -- the caller is awake now, and finds the buffer as it waits for it
        obtain ⟨rfl, rfl⟩ := Prod.mk.inj heq
        right
        rw [retire_buf_self]
        refine ⟨?_, ?_, ?_⟩
        · change (if s.pc p' = .sleeping b' then Pc.woken b' else s.pc p') = .woken b'
          cases hp : s.pc p' <;> rw [hp] at hpc <;> cases hpc
          · exact if_pos rfl
          · exact if_neg nofun
        · rw [finish]
          by_cases hdirty : (s.buf b').dirty <;> simp [hdirty, hreq.lock]
        · rfl
      · exact .inl hmem
    · right
      have hne : b' ≠ b := by
        rintro rfl
        exact nomatch hdone.symm.trans hreq.todo
      rw [retire_buf_of_ne hne]
      refine ⟨?_, hlock, hdone⟩
      change (if s.pc p' = .sleeping b then Pc.woken b else s.pc p') = .woken b'
      rw [hwoken]
      exact if_neg nofun

end

/-- `memide.c` finds the request in order, and does the same to the buffer and the disk. -/
theorem Agree.retire (h : s.Agree m) (hq : s.Inv ((p, b) :: q))
    (hphase : s.drive.phase = .ready data) :
    ∃ m', m.step (.iderw p) = .next m' ∧ (s.retire b data).Agree m' := by
  obtain ⟨hreq, hpc⟩ := hq.request (p, b) (by simp)
  have hcalled : m.pc p = .called b := by
    rw [h.pc_eq, view, hpc]
    simp only
    rw [hreq.todo]
    rfl
  have hstarted : if (s.buf b).dirty then s.drive.disk 1 (s.buf b).blockno = (s.buf b).data
      else data = some (s.drive.disk 1 (s.buf b).blockno) := by
    have hhead := hq.started (p, b) (by simp)
    rw [Started, hphase] at hhead
    exact hhead
  -- the other processes wait for other buffers
  have hview : (s.retire b data).view = Function.update m.pc p (.finished b) := by
    funext p'
    by_cases heq : p' = p
    · subst heq
      rw [update_self, view, retire_pc_buf, hpc]
      simp only
      rw [retire_buf_self]
      rfl
    · rw [update_of_ne heq, h.pc_eq]
      apply view_congr (retire_pc_buf p')
      intro b' hb'
      have hne : b' ≠ b := by
        rintro rfl
        exact heq (Option.some.inj ((hq.lock_of_waits hb').symm.trans hreq.lock))
      rw [retire_buf_of_ne hne]
  have hbuf : (m.modify b (s.finish b data)).buf = (s.retire b data).buf := by
    rw [Memide.modify, h.buf]
    rfl
  have hcall : m.iderw p b = if (s.buf b).dirty then
        .next { m.modify b { s.buf b with dirty := false, valid := true } with
          memdisk := Function.update m.memdisk (s.buf b).blockno (s.buf b).data }
      else .next (m.modify b { s.buf b with
        data := m.memdisk (s.buf b).blockno, valid := true }) := by
    rw [Memide.iderw, h.buf]
    simp [hreq.lock, hreq.todo, hreq.dev, hreq.blockno]
  rw [Memide.step, hcalled]
  simp only
  cases hdirty : (s.buf b).dirty with
  | true =>
    rw [hdirty, if_pos rfl] at hstarted
    rw [hcall, hdirty, if_pos rfl]
    refine ⟨_, rfl, ?_, hview.symm, ?_⟩
    · rw [← hbuf]
      simp [Memide.modify, finish, hdirty]
    · intro n _
      change Function.update m.memdisk _ _ n = s.drive.disk 1 n
      by_cases hn : n = (s.buf b).blockno
      · rw [hn, update_self, hstarted]
      · rw [update_of_ne hn]
        refine h.disk n ?_
        rintro ⟨b', d, hhead, -, -, hno⟩
        obtain rfl : b = b' := Option.some.inj (hq.holds.1.symm.trans hhead)
        exact hn hno.symm
  | false =>
    have hdisk : ∀ n, m.memdisk n = s.drive.disk 1 n := by
      intro n
      refine h.disk n ?_
      rintro ⟨b', d, hhead, -, hdirty', -⟩
      obtain rfl : b = b' := Option.some.inj (hq.holds.1.symm.trans hhead)
      exact nomatch hdirty.symm.trans hdirty'
    rw [hdirty, if_neg Bool.false_ne_true] at hstarted
    rw [hcall, hdirty, if_neg Bool.false_ne_true]
    refine ⟨_, rfl, ?_, hview.symm, fun n _ => hdisk n⟩
    rw [← hbuf]
    simp [Memide.modify, finish, hdirty, hstarted, hdisk]

end

theorem Inv.ideintr {data : Option Block} (h : s.Inv ((p, b) :: q)) (hm : s.Agree m)
    (hphase : s.drive.phase = .ready data) :
    ∃ s' m', s.ideintr = .next s' ∧ s'.Inv q ∧ m.step (.iderw p) = .next m' ∧ s'.Agree m' := by
  obtain ⟨m', hm', hagree⟩ := hm.retire h hphase
  have hqueued : (s.retire b data).Queued q := h.toQueued.retire
  rw [Ide.ideintr, show s.queue.head = some b from h.holds.1]
  simp only
  rw [hphase]
  simp only
  cases q with
  | nil =>
    rw [show (s.retire b data).queue.head = none from hqueued.holds]
    exact ⟨_, m', rfl, { hqueued with started := nofun, idle := fun _ => rfl }, hm', hagree⟩
  | cons r q =>
    rw [show (s.retire b data).queue.head = some r.2 from hqueued.holds.1]
    obtain ⟨s', hstart, hinv, hkeep⟩ := hqueued.start rfl
    exact ⟨s', m', hstart, hinv, hm', hkeep m' hagree⟩

theorem stays_ideintr (h : s.Inv q) (hm : s.Agree m) (hs : s.step .ideintr = .next s') :
    s.Stays s' m .ideintr := by
  rw [step] at hs
  cases q with
  | nil =>
    have hhead : s.queue.head = none := h.holds
    rw [Ide.ideintr, hhead] at hs
    cases hs
    refine ⟨[], m, h, ?_, hm⟩
    rw [event, hhead]
    rfl
  | cons r q =>
    obtain ⟨p, b⟩ := r
    have hhead : s.queue.head = some b := h.holds.1
    cases hphase : s.drive.phase with
    | idle | busy c => rw [Ide.ideintr, hhead] at hs; simp [hphase] at hs
    | ready data =>
      obtain ⟨t, m', ht, hinv, hm', hagree⟩ := h.ideintr hm hphase
      cases ht.symm.trans hs
      refine ⟨q, m', hinv, ?_, hagree⟩
      rw [event, hhead, Option.bind_some, (h.request (p, b) (by simp)).1.lock]
      exact hm'

theorem stays_step {a : Event P} (h : s.Inv q) (hm : s.Agree m) (hok : s.Permitted a)
    (hs : s.step a = .next s') : s.Stays s' m a := by
  cases a with
  | lock p b => exact stays_lock h hm hs
  | unlock p b => exact stays_unlock h hm hs
  | change b dev blockno valid dirty data => exact stays_change h hm hs
  | iderw p b => exact stays_iderw h hm hok hs
  | wake p => exact stays_wake h hm hs
  | run p => exact stays_run h hm hs
  | complete => exact stays_complete h hm hs
  | ideintr => exact stays_ideintr h hm hs

theorem Inv.step_ne_panic {a : Event P} {e : Panic} (h : s.Inv q) (hm : s.Agree m)
    (hok : s.Permitted a) : s.step a ≠ .panic e := by
  have hedit : ∀ b (x : Option (Entry P)), s.edit b x ≠ .panic e := by
    intro b x
    cases x <;> exact nofun
  cases a with
  | lock p b | unlock p b => rw [step]; split; exacts [hedit _ _, nofun]
  | change b dev blockno valid dirty data => exact hedit _ _
  | wake p | run p | complete => rw [step]; split <;> exact nofun
  | iderw p b =>
    rw [step]
    by_cases hp : s.pc p = .idle
    · obtain ⟨s', hs', -⟩ := h.iderw hm hp hok
      rw [if_pos hp, hs']
      exact nofun
    · rw [if_neg hp]
      exact nofun
  | ideintr =>
    rw [step]
    cases q with
    | nil =>
      rw [Ide.ideintr, show s.queue.head = none from h.holds]
      exact nofun
    | cons r q =>
      cases hphase : s.drive.phase with
      | idle | busy c => rw [Ide.ideintr, h.holds.1]; simp [hphase]
      | ready data =>
        obtain ⟨s', -, hs', -⟩ := h.ideintr hm hphase
        rw [hs']
        exact nofun

omit [DecidableEq P] in
theorem Inv.init (buf : Buf → Entry P) (disk : Nat → Nat → Block) : (init buf disk).Inv [] where
  disk1 := rfl
  holds := rfl
  nodup := .nil
  log := rfl
  request := nofun
  waits := nofun
  started := nofun
  idle _ := rfl

omit [DecidableEq P] in
theorem Agree.init (buf : Buf → Entry P) (disk : Nat → Nat → Block) :
    (init buf disk).Agree (Memide.init buf (disk 1)) where
  buf := rfl
  pc := rfl
  disk _ _ := rfl

/-- In every run of `ide.c` the queue holds the requests made and not completed, in the order of the
calls and each buffer once; the drive works on the first of them and on nothing else; who sleeps has a
request in the queue, and no call panics or hangs.  A run of `memide.c` in which each request is
performed when its interrupt is handled has the same buffers at every step, and the same disk 1, except
for a write whose interrupt is still to come. -/
theorem drivers_agree (buf : Buf → Entry P) (disk : Nat → Nat → Block)
    (h : Reach step Permitted (init buf disk) s) :
    ∃ q : List (P × Buf), s.queue.Holds (q.map Prod.snd) ∧ (q.map Prod.snd).Nodup ∧
      s.requested = s.completed ++ q ∧
      (∀ r ∈ q.head?, s.Started r.2) ∧ (q = [] → s.drive.phase = .idle) ∧
      (∀ p b, s.pc p = .sleeping b → (p, b) ∈ q) ∧
      (∀ a e, s.Permitted a → s.step a ≠ .panic e) ∧
      ∃ m, Reach Memide.step (fun _ _ => True) (Memide.init buf (disk 1)) m ∧ s.Agree m ∧
        ∀ a s', s.Permitted a → s.step a = .next s' →
          ∃ m', Follows Memide.step m (s.event a) m' ∧ s'.Agree m' := by
  obtain ⟨m, hreach, ⟨q, hinv⟩, hm⟩ := h.simulate (R := fun s m => (∃ q, s.Inv q) ∧ s.Agree m)
    event ⟨⟨[], .init buf disk⟩, .init buf disk⟩ (by
      rintro s a s' m ⟨⟨q, hinv⟩, hm⟩ hok hs
      obtain ⟨q', m', hinv', hfollow, hm'⟩ := stays_step hinv hm hok hs
      exact ⟨m', hfollow, ⟨q', hinv'⟩, hm'⟩)
  refine ⟨q, hinv.holds, hinv.nodup, hinv.log, hinv.started, hinv.idle, ?_,
    fun a e hok => hinv.step_ne_panic hm hok, m, hreach, hm, ?_⟩
  · intro p b hp
    rcases hinv.waits p b (by rw [hp]; rfl) with hmem | ⟨hwoken, -⟩
    · exact hmem
    · exact nomatch hp.symm.trans hwoken
  · intro a s' hok hs
    obtain ⟨-, m', -, hfollow, hm'⟩ := stays_step hinv hm hok hs
    exact ⟨m', hfollow, hm'⟩

/-- Two processes ask for a block each, and the second request is started when the first completes. -/
theorem drivers_agree_two : ∃ s : Ide Bool, Reach step Permitted
        (init (fun b => ⟨1, b, false, b == 1, none, fun _ => 5⟩) fun _ _ _ => 3) s ∧
      s.requested = [(true, 0), (false, 1)] ∧ s.completed = [(true, 0)] ∧
      ∃ q : List (Bool × Buf), s.queue.Holds (q.map Prod.snd) ∧ s.requested = s.completed ++ q ∧
        (∀ r ∈ q.head?, s.Started r.2) ∧ ∃ m, s.Agree m := by
  obtain ⟨s, hrun, hrequested, hcompleted⟩ := Outcome.exists_of_holds
    (r := runEvents (step (P := Bool))
      (init (fun b => ⟨1, b, false, b == 1, none, fun _ => 5⟩) fun _ _ _ => 3)
      [.lock true 0, .lock false 1, .iderw true 0, .iderw false 1, .complete, .ideintr])
    (Q := fun s => s.requested = [(true, 0), (false, 1)] ∧ s.completed = [(true, 0)])
    (by decide +kernel)
  have hok : Along (step (P := Bool)) Permitted
      (init (fun b => ⟨1, b, false, b == 1, none, fun _ => 5⟩) fun _ _ _ => 3)
      [.lock true 0, .lock false 1, .iderw true 0, .iderw false 1, .complete, .ideintr] := by
    decide +kernel
  have hreach := Reach.of_runEvents .init _ hok hrun
  obtain ⟨q, hholds, -, hlog, hstarted, -, -, -, m, -, hm, -⟩ := drivers_agree _ _ hreach
  exact ⟨s, hreach, hrequested, hcompleted, q, hholds, hlog, hstarted, m, hm⟩

end Ide

end Xv6
