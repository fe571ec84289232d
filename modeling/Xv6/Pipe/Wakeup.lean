import Xv6.Lib.Sum
import Xv6.Param
import Xv6.Pipe.Fifo

/-!
# No lost wakeups on a pipe

A process that changes the pipe under `p->lock` owes a `wakeup` to those whom the change lets go
on, and pays it before it releases the lock.  The one exit that does not pay is the one of a killed
writer from a full pipe.
-/

namespace Xv6.Pipe

open Sleep (Act Pc Outline Locked Signal Signals)

variable {P : Type} [DecidableEq P]

def Buf.isOpen (b : Buf) (writable : Bool) : Bool := if writable then b.writeopen else b.readopen

/-- What a process waits for on the channel: data or the end of the data, room or nobody left to
read. -/
def Buf.ready (b : Buf) : Bool → Bool
  | false => !b.empty || !b.writeopen
  | true => !b.full || !b.readopen

namespace Point

/-- The end that a call in progress uses -/
def uses : Point P → Option Bool
  | .writeAcquire _ | .writeLoop _ _ _ | .writeFull _ _ _ | .writeKilled _ _ _ | .writeWakeup _ _
  | .writeSleep _ _ | .writeDone _ | .writeReturn _ => some true
  | .readAcquire _ | .readLoop _ | .readKilled _ | .readSleep _ | .readCopy _ _ | .readWakeup _ _
  | .readReturn _ _ => some false
  | _ => none

/-- The end that `pipeclose` is about to mark -/
def closing : Point P → Option Bool
  | .closeAcquire writable | .closeMark writable => some writable
  | _ => none

/-- What the process has seen of the pipe since it took the lock -/
def seen (b : Buf) : Point P → Prop
  | .writeFull _ _ _ => b.full = true
  | .writeKilled _ _ _ | .writeWakeup _ _ | .writeSleep _ _ => b.full = true ∧ b.readopen = true
  | .readKilled _ | .readSleep _ => b.empty = true ∧ b.writeopen = true
  | _ => True

/-- The process will issue `wakeup` on the channel before it releases `p->lock`. -/
def owes (chan : Bool) : Point P → Bool
  | .writeLoop _ _ stored | .writeFull _ _ stored | .writeKilled _ _ stored => !chan && stored
  | .writeWakeup _ _ | .writeDone _ => !chan
  | .readCopy _ _ | .readWakeup _ _ => chan
  | .closeWakeup writable => chan != writable
  | _ => false

end Point

/-- A process in a call holds a descriptor of the end it uses, and an end is marked closed only
when nobody holds one. -/
structure Data.Refs [Fintype P] (d : Data P) : Prop where
  ref : ∀ w, d.ref w = ∑ q, d.fds q w
  closed : ∀ w, d.buf.isOpen w = false → d.ref w = 0

structure Knows (p : P) (k : Point P) (d : Data P) : Prop where
  fds : ∀ {w}, k.uses = some w → 0 < d.fds p w
  closing : ∀ {w}, k.closing = some w → d.ref w = 0
  seen : k.seen d.buf

variable {d d' : Data P} {p q : P} {w : Bool} {k k' : Point P}

section

omit [DecidableEq P]

theorem Knows.goto (h : Knows p k d) (hfds : d'.fds = d.fds) (href : d'.ref = d.ref)
    (huses : k'.uses = none ∨ k'.uses = k.uses)
    (hclosing : k'.closing = none ∨ k'.closing = k.closing) (hseen : k'.seen d'.buf) :
    Knows p k' d' := by
  refine ⟨fun {w} hw => ?_, fun {w} hw => ?_, hseen⟩
  · rw [hfds]
    rcases huses with hnone | hsame
    · exact nomatch hnone.symm.trans hw
    · exact h.fds (hsame ▸ hw)
  · rw [href]
    rcases hclosing with hnone | hsame
    · exact nomatch hnone.symm.trans hw
    · exact h.closing (hsame ▸ hw)

theorem Knows.user (d : Data P) : Knows p .user d := ⟨nofun, nofun, trivial⟩

variable [Fintype P]

theorem Data.Refs.ref_pos (h : d.Refs) (hp : 0 < d.fds p w) : 0 < d.ref w := by
  rw [h.ref w]
  have hle := le_sum_univ (fun q => d.fds q w) p
  omega

theorem Data.Refs.buf (h : d.Refs) {b : Buf}
    (hopen : ∀ w, b.isOpen w = d.buf.isOpen w ∨ d.ref w = 0) : Data.Refs { d with buf := b } := by
  refine ⟨h.ref, fun w hw => ?_⟩
  rcases hopen w with hsame | hzero
  · exact h.closed w (hsame ▸ hw)
  · exact hzero

end

theorem fds_setFds (n ref : Nat) (v : Bool) :
    (d.setFds p w n ref).fds q v = if q = p ∧ v = w then n else d.fds q v := by
  by_cases hq : q = p
  · subst q
    by_cases hv : v = w
    · subst v
      simp [Data.setFds]
    · simp [Data.setFds, hv]
  · simp [Data.setFds, hq]

section Refs

variable [Fintype P]

/-- A descriptor more or less, and `ref` with it -/
theorem Data.Refs.setFds (h : d.Refs) {n ref : Nat} (hbal : ref + d.fds p w = d.ref w + n)
    (hzero : d.ref w = 0 → ref = 0) : (d.setFds p w n ref).Refs := by
  refine ⟨fun v => ?_, fun v hv => ?_⟩
  · change Function.update d.ref w ref v = _
    by_cases hv : v = w
    · subst hv
      have hsum := sum_balance (f := fun q => d.fds q v)
        (g := fun q => (d.setFds p v n ref).fds q v) p
        (fun q hq => by rw [fds_setFds, if_neg fun he => hq he.1])
      simp only [fds_setFds (q := p), and_self, if_true] at hsum
      rw [Function.update_self]
      have hold := h.ref v
      omega
    · rw [Function.update_of_ne hv, h.ref v]
      exact Finset.sum_congr rfl fun q _ => by rw [fds_setFds, if_neg fun he => hv he.2]
  · change Function.update d.ref w ref v = 0
    have hold := h.closed v hv
    by_cases hw : v = w
    · subst hw
      rw [Function.update_self, hzero hold]
    · rw [Function.update_of_ne hw, hold]

theorem refs_own (hd : d.Refs) (h : Knows p k d) : (code p k).verifies Data.Refs (Knows p) d := by
  cases k with
  | user =>
    intro k hk
    cases k with
    | writeTrap | readTrap | closeCall | shareCall => exact ⟨nofun, nofun, trivial⟩
    | _ => cases hk
  | writeTrap | readTrap => exact ⟨.user d, ⟨nofun, nofun, trivial⟩⟩
  | writeCall =>
    dsimp only [code, Act.verifies]
    split
    next hfd =>
      refine ⟨⟨hd.ref, hd.closed⟩, ?_, nofun, trivial⟩
      rintro _ ⟨⟩
      exact hfd
    · exact ⟨hd, .user d⟩
  | writeLoop =>
    dsimp only [code, Act.verifies, writeLoop]
    split
    · exact ⟨hd, h.goto rfl rfl (.inr rfl) (.inl rfl) trivial⟩
    · split
      next hfull => exact ⟨hd, h.goto rfl rfl (.inr rfl) (.inl rfl) hfull⟩
      · exact ⟨⟨hd.ref, hd.closed⟩, h.goto rfl rfl (.inr rfl) (.inl rfl) trivial⟩
  | writeFull =>
    refine ⟨hd, ?_⟩
    dsimp only
    split
    · exact h.goto rfl rfl (.inr rfl) (.inl rfl) trivial
    next hopen => exact h.goto rfl rfl (.inr rfl) (.inl rfl) ⟨h.seen, by simpa using hopen⟩
  | writeKilled | readKilled =>
    exact ⟨h.goto rfl rfl (.inr rfl) (.inl rfl) trivial, h.goto rfl rfl (.inr rfl) (.inl rfl) h.seen⟩
  | writeWakeup => exact h.goto rfl rfl (.inr rfl) (.inl rfl) h.seen
  | readCall =>
    refine ⟨hd, ?_⟩
    dsimp only
    split
    next hfd =>
      refine ⟨?_, nofun, trivial⟩
      rintro _ ⟨⟩
      exact hfd
    · exact .user d
  | readLoop =>
    refine ⟨hd, ?_⟩
    dsimp only
    split
    next hwait => exact h.goto rfl rfl (.inr rfl) (.inl rfl) hwait
    · exact h.goto rfl rfl (.inr rfl) (.inl rfl) trivial
  | readCopy =>
    dsimp only [code, Act.verifies, readCopy]
    split
    · split
      · exact ⟨hd, h.goto rfl rfl (.inr rfl) (.inl rfl) trivial⟩
      · exact ⟨⟨hd.ref, hd.closed⟩, h.goto rfl rfl (.inr rfl) (.inl rfl) trivial⟩
    · exact ⟨hd, h.goto rfl rfl (.inr rfl) (.inl rfl) trivial⟩
  | closeCall w =>
    dsimp only [code, Act.verifies, fileclose]
    split
    next hfd =>
      have hpos := hd.ref_pos hfd
      refine ⟨hd.setFds (by omega) (by omega), ?_⟩
      split
      next hone =>
        refine ⟨nofun, ?_, trivial⟩
        rintro _ ⟨⟩
        change Function.update d.ref w (d.ref w - 1) w = 0
        rw [Function.update_self, hone]
      · exact .user _
    · exact ⟨hd, .user d⟩
  | closeMark w =>
    refine ⟨hd.buf fun v => ?_, ⟨nofun, nofun, trivial⟩⟩
    by_cases hv : v = w
    · exact .inr (hv ▸ h.closing rfl)
    · refine .inl ?_
      cases v <;> cases w <;> first | rfl | exact absurd rfl hv
  | shareCall q w =>
    dsimp only [code, Act.verifies, share]
    split
    next hfd =>
      have hpos := hd.ref_pos hfd
      exact ⟨hd.setFds (by omega) (by omega), .user _⟩
    · exact ⟨hd, .user d⟩
  | writeAcquire | writeSleep | writeDone | readAcquire | readSleep | readWakeup =>
    exact h.goto rfl rfl (.inr rfl) (.inl rfl) trivial
  | closeAcquire => exact h.goto rfl rfl (.inl rfl) (.inr rfl) trivial
  | writeReturn | readReturn | closeWakeup | closeRelease =>
    exact h.goto rfl rfl (.inl rfl) (.inl rfl) trivial

/-- What an access to the data by `p` leaves of the descriptors of the others -/
theorem refs_of_data (hd : d.Refs) {f : Data P → Data P × Point P} (hact : code p k = .data f)
    (hq : q ≠ p) : (∀ w, d.fds q w ≤ (f d).1.fds q w) ∧ ∀ w, d.ref w = 0 → (f d).1.ref w = 0 := by
  have hsame : ∀ {d' : Data P}, d'.fds = d.fds → d'.ref = d.ref →
      (∀ w, d.fds q w ≤ d'.fds q w) ∧ ∀ w, d.ref w = 0 → d'.ref w = 0 := by
    intro d' hfds href
    rw [hfds, href]
    exact ⟨fun _ => Nat.le_refl _, fun _ => id⟩
  have hset : ∀ {r v n ref}, 0 < d.fds p v → (r = q → d.fds q v ≤ n) →
      (∀ w, d.fds q w ≤ (d.setFds r v n ref).fds q w) ∧
        ∀ w, d.ref w = 0 → (d.setFds r v n ref).ref w = 0 := by
    intro r v n ref hfd hn
    refine ⟨fun w => ?_, fun w hw => ?_⟩
    · rw [fds_setFds]
      split
      next he => exact he.2 ▸ hn he.1.symm
      · exact Nat.le_refl _
    · have hne : w ≠ v := fun he => (hd.ref_pos (he ▸ hfd)).ne' hw
      exact (Function.update_of_ne hne ..).trans hw
  cases k with
  | writeLoop =>
    cases hact
    rw [writeLoop]
    split
    · exact hsame rfl rfl
    · split <;> exact hsame rfl rfl
  | readCopy =>
    cases hact
    rw [readCopy]
    split
    · split <;> exact hsame rfl rfl
    · exact hsame rfl rfl
  | closeCall =>
    cases hact
    rw [fileclose]
    split
    next hfd => exact hset hfd fun he => absurd he.symm hq
    · exact hsame rfl rfl
  | shareCall =>
    cases hact
    rw [share]
    split
    next hfd => exact hset hfd fun he => by rw [he]; exact Nat.le_succ _
    · exact hsame rfl rfl
  | writeCall =>
    cases hact
    dsimp only
    split <;> exact hsame rfl rfl
  | writeFull | readCall | readLoop | closeMark =>
    cases hact
    exact hsame rfl rfl
  | _ => cases hact

theorem refs_outline : Outline code Point.holds (Data.Refs (P := P)) Knows where
  own := refs_own
  others {p q k f d pc} hact hq hd _ hcalled hfree h := by
    obtain ⟨hfds, href⟩ := refs_of_data hd hact hq
    refine ⟨fun hw => (h.fds hw).trans_le (hfds _), fun hw => href _ (h.closing hw), ?_⟩
    cases pc with
    | sleep | sleepRelease | sleepMark | asleep =>
      obtain ⟨k₀, hk₀⟩ := hcalled
      cases k₀ with
      | writeSleep | readSleep =>
        cases hk₀
        trivial
      | _ => cases hk₀
    | code k' =>
      have hseen : k'.seen d.buf := h.seen
      have hlocked : k'.holds = some () → (f d).1.buf = d.buf := by
        intro hk'
        cases hk : k.holds with
        | none => exact (apart_of_data hact).2 hk
        | some => exact absurd hk' (hfree _ hk)
      cases k' with
      | writeFull | writeKilled | writeWakeup | writeSleep | readKilled | readSleep =>
        rw [hlocked rfl]
        exact hseen
      | _ => trivial

end Refs

/-- Data or room are of no use to those who wait on an end that nobody has open. -/
def signal : Signal (Point P) Unit Bool (Data P) where
  mon _ := ()
  ready c d := d.buf.ready c && d.buf.isOpen c
  owes := Point.owes

theorem signals [Fintype P] : Signals signal code Point.holds (Data.Refs (P := P)) Knows where
  held {c k} h := by
    cases k with
    | _ => first | rfl | cases h
  act {p k d c} hd h := by
    have hsame : ∀ {f : Data P → Data P × Point P}, (f d).1.buf = d.buf →
        (d.buf.isOpen c = true → k.owes c = true → (f d).2.owes c = true) →
        (Act.data f : Act _ Unit Bool _).signals signal Point.holds k d c := by
      intro f hbuf hkeeps hready
      rw [show signal.ready c (f d).1 = signal.ready c d by simp only [signal, hbuf]] at hready
      exact .inl ⟨hready, hkeeps (Bool.and_eq_true_iff.mp hready).2⟩
    have hfree : ∀ {f}, code p k = .data f → k.holds = none → (f d).1.buf = d.buf :=
      fun hact => (apart_of_data hact).2
    cases k with
    | writeCall | closeCall | shareCall => exact hsame (hfree rfl rfl) nofun
    | writeLoop bytes i stored =>
      intro hready
      dsimp only [writeLoop] at hready ⊢
      split at hready
      · exact .inl ⟨hready, fun howes => (Bool.and_eq_true_iff.mp howes).1⟩
      · split at hready
        next hfull =>
          rw [if_pos hfull]
          exact .inl ⟨hready, id⟩
        next hfull =>
          rw [if_neg hfull]
          cases c with
          | false => exact .inr ⟨rfl, rfl⟩
          | true =>
            -- There was room before.
            refine .inl ⟨?_, nofun⟩
            have hopen := (Bool.and_eq_true_iff.mp hready).2
            exact Bool.and_eq_true_iff.mpr ⟨by simp [Buf.ready, hfull], hopen⟩
    | writeFull bytes i stored =>
      refine hsame rfl fun hopen howes => ?_
      dsimp only
      split
      next hclosed =>
        -- The debt is not paid, but nobody has the read end.
        cases c with
        | false => exact nomatch hclosed.symm.trans hopen
        | true => cases howes
      · exact howes
    | writeKilled => exact fun howes => (Bool.and_eq_true_iff.mp howes).1
    | writeWakeup | writeDone =>
      cases c with
      | false => exact .inl rfl
      | true => exact .inr nofun
    | writeSleep | readSleep =>
      refine ⟨rfl, ?_⟩
      rintro rfl
      exact ⟨rfl, by simp [signal, Buf.ready, h.seen.1, h.seen.2]⟩
    | readCall | readLoop => exact hsame rfl nofun
    | readCopy n i =>
      intro hready
      dsimp only [readCopy] at hready ⊢
      split at hready
      next hi =>
        rw [if_pos hi]
        split at hready
        next hempty =>
          rw [if_pos hempty]
          exact .inl ⟨hready, id⟩
        next hempty =>
          rw [if_neg hempty]
          cases c with
          | true => exact .inr ⟨rfl, rfl⟩
          | false =>
            -- There was data before.
            refine .inl ⟨?_, nofun⟩
            have hopen := (Bool.and_eq_true_iff.mp hready).2
            exact Bool.and_eq_true_iff.mpr ⟨by simp [Buf.ready, hempty], hopen⟩
      next hi =>
        rw [if_neg hi]
        exact .inl ⟨hready, id⟩
    | readWakeup =>
      cases c with
      | true => exact .inl rfl
      | false => exact .inr nofun
    | closeMark w =>
      intro hready
      by_cases hc : c = w
      · subst w
        have hopen := (Bool.and_eq_true_iff.mp hready).2
        cases c <;> cases hopen
      · exact .inr ⟨rfl, by simpa [signal, Point.owes] using hc⟩
    | closeWakeup w =>
      by_cases hc : c = w
      · refine .inr fun howes => ?_
        simp [signal, Point.owes, hc] at howes
      · exact .inl (by cases c <;> cases w <;> first | rfl | exact absurd rfl hc)
    | writeTrap | readTrap | readKilled => exact nofun
    | writeAcquire | readAcquire | closeAcquire => trivial
    | user | writeReturn | readReturn | closeRelease => exact rfl

/-- `pipewrite` has found the pipe full after storing a byte since it took the lock, and the read end
open. -/
def Point.filled : Point P → Bool
  | .writeKilled _ _ stored => stored
  | _ => false

/-- No process is killed when its `pipewrite` finds the pipe full after it has itself stored a
byte since it took the lock, unless the read end is closed. -/
def Sys.heeds (s : Sys P) : Event P → Prop
  | .run p => (s.thread p).pc.isAt Point.filled = true → (s.thread p).killed = false
  | .go _ _ | .kill _ => True

instance (s : Sys P) : (e : Event P) → Decidable (s.heeds e)
  | .run _ => inferInstanceAs (Decidable (_ → _))
  | .go _ _ | .kill _ => .isTrue trivial

theorem Sys.heeds.pays {s : Sys P} {e : Event P} (h : Sys.heeds s e) :
    Sleep.Sys.pays signal code s e := by
  cases e with
  | go | kill => trivial
  | run p =>
    intro k yes no c hpc hact hkilled howes
    cases k with
    | writeKilled bytes i stored =>
      have hstored : stored = true := (Bool.and_eq_true_iff.mp howes).2
      exact nomatch (h (by rw [hpc]; exact hstored)).symm.trans hkilled
    | writeTrap | readTrap | readKilled => cases howes
    | _ => cases hact

theorem uses_of_chan {c : Bool} {pc : Pc (Point P) Unit Bool} (hcalled : pc.called (code p))
    (hc : pc.chan = some c) : pc.point.uses = some c := by
  cases pc with
  | asleep =>
    obtain ⟨k₀, hk₀⟩ := hcalled
    cases k₀ with
    | writeSleep | readSleep =>
      cases hk₀
      exact hc
    | _ => cases hk₀
  | _ => cases hc

/-- In every state that a run reaches whose steps all heed the condition: while `p->lock` is free,
nobody sleeps on `&p->nread` unless the pipe is empty and its write end open, nor on `&p->nwrite`
unless the pipe is full and its read end open. -/
theorem no_lost_wakeup [Fintype P] {p : P} {data : Nat → UInt8} {s : Sys P}
    (h : Reach Sys.step Sys.heeds (Sys.init p data) s) (hfree : s.lock () = none) (q : P) :
    ((s.thread q).sleepsOn false = true → s.data.buf.empty = true ∧ s.data.buf.writeopen = true) ∧
    ((s.thread q).sleepsOn true = true → s.data.buf.full = true ∧ s.data.buf.readopen = true) := by
  obtain ⟨hlocked, hfollows, hsignalled⟩ :
      Locked code Point.holds s ∧ s.Follows Data.Refs Knows ∧ s.Signalled signal := by
    refine h.invariant
      (I := fun s => Locked code Point.holds s ∧ s.Follows Data.Refs Knows ∧ s.Signalled signal)
      ⟨locked_init p data, ⟨⟨fun w => ?_, fun w hw => ?_⟩, fun _ => .user _⟩, ?_⟩ ?_
    · simp [Sys.init]
    · cases w <;> cases hw
    · exact ⟨by simp [Sys.init], fun hq => hq.elim⟩
    · rintro t e t' ⟨hl, hf, hg⟩ hheeds hs
      exact ⟨hl.step code_keeps hs, refs_outline.step hl hf hs,
        signals.step code_keeps hl hf hg hheeds.pays hs⟩
  have hidle (c : Bool) (hsleep : (s.thread q).sleepsOn c = true) : s.data.buf.ready c = false := by
    have hchan := of_decide_eq_true (Bool.and_eq_true_iff.mp hsleep).2
    have hfd := (hfollows.2 q).fds (uses_of_chan (hlocked.called q) hchan)
    have hopen : s.data.buf.isOpen c = true := by
      by_contra hclosed
      have hzero := hfollows.1.closed c (by simpa using hclosed)
      have hpos := hfollows.1.ref_pos hfd
      omega
    have hnot := hsignalled.not_ready signals hlocked hfree hsleep
    rwa [show signal.ready c s.data = (s.data.buf.ready c && s.data.buf.isOpen c) from rfl, hopen,
      Bool.and_true] at hnot
  constructor
  · intro hsleep
    simpa [Buf.ready] using hidle false hsleep
  · intro hsleep
    simpa [Buf.ready] using hidle true hsleep

/-- A reader goes to sleep on an empty pipe; process 2 keeps the write end open too. -/
def readerAsleep : List (Event (Fin 3)) :=
  [.go 0 (.shareCall 1 false), .run 0, .go 0 (.shareCall 2 true), .run 0, .go 1 (.readTrap 1)] ++
    List.replicate 9 (.run 1)

theorem no_lost_wakeup_reader :
    ∃ s : Sys (Fin 3), runEvents Sys.step (Sys.init 0 fun _ => 0) readerAsleep = .next s ∧
      (s.thread 1).sleepsOn false = true ∧ s.data.buf.empty = true ∧ s.data.buf.writeopen = true := by
  have hrun : (runEvents Sys.step (Sys.init 0 fun _ => 0 : Sys (Fin 3)) readerAsleep).holds
      fun s => s.lock () = none ∧ (s.thread 1).sleepsOn false = true := by decide +kernel
  obtain ⟨s, hs, hfree, hsleep⟩ := Outcome.exists_of_holds hrun
  have hheeds : Along Sys.step Sys.heeds (Sys.init 0 fun _ => 0 : Sys (Fin 3)) readerAsleep := by
    decide +kernel
  have hreach := Reach.of_runEvents .init _ hheeds hs
  exact ⟨s, hs, hsleep, (no_lost_wakeup hreach hfree 1).1 hsleep⟩

/-- A writer is killed after it has filled the pipe: it returns without waking the reader, who
sleeps on while the pipe holds data and process 2 holds its write end. -/
def writerKilled : List (Event (Fin 3)) :=
  readerAsleep ++ .go 0 (.writeTrap (List.replicate 513 0)) :: List.replicate 3 (.run 0) ++
    .kill 0 :: List.replicate 516 (.run 0)

theorem lost_wakeup :
    ∃ s : Sys (Fin 3), runEvents Sys.step (Sys.init 0 fun _ => 0) writerKilled = .next s ∧
      s.lock () = none ∧ (s.thread 1).sleepsOn false = true ∧ s.data.buf.empty = false ∧
      (s.thread 0).pc = .code .user ∧ 0 < s.data.fds 2 true := by
  apply Outcome.exists_of_holds (Q := fun s : Sys (Fin 3) => s.lock () = none ∧
    (s.thread 1).sleepsOn false = true ∧ s.data.buf.empty = false ∧
    (s.thread 0).pc = .code .user ∧ 0 < s.data.fds 2 true)
  decide +kernel

end Xv6.Pipe
