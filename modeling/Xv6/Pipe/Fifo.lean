import Xv6.Lib.Ring
import Xv6.Pipe.State
import Xv6.Proc.Monitor

/-!
# A pipe is a FIFO

The bytes that all calls of `pipewrite` store and all calls of `piperead` deliver pass through the
ring `data` in order, however the calls interleave and however often the counters wrap.
-/

namespace Xv6.Pipe

open Sleep (Act Pc Outline Locked)

variable {P : Type} [DecidableEq P]

/-- The buffered bytes, oldest first. -/
def Buf.contents (b : Buf) : List UInt8 :=
  (List.range ((b.nwrite + (2 ^ 32 - b.nread)) % 2 ^ 32)).map fun k =>
    b.data ((b.nread + k) % 2 ^ 32 % PIPESIZE)

namespace Data

variable (d : Data P)

/-- All bytes ever stored. -/
def bytes : List UInt8 := d.log.map Stored.byte

/-- The bytes that the `k`th call of `pipewrite` by `p` has stored. -/
def stored (p : P) (k : Nat) : List UInt8 :=
  (d.log.filter fun e => e.proc = p ∧ e.call = k).map Stored.byte

/-- The call of `pipewrite` that `p` made last. -/
def lastCall (p : P) : Nat := (d.calls p).length - 1

/-- The last call of `p` is one with these bytes, and has stored `i` of them. -/
def Wrote (p : P) (bytes : List UInt8) (i : Nat) : Prop :=
  (d.calls p).getLast? = some bytes ∧ d.stored p (d.lastCall p) = bytes.take i

structure Fifo : Prop where
  ring : Ring PIPESIZE d.buf.data d.bytes d.out.length
  nread : d.buf.nread = d.out.length % 2 ^ 32
  nwrite : d.buf.nwrite = d.bytes.length % 2 ^ 32
  out : d.out = d.bytes.take d.out.length
  calls : ∀ p k, d.stored p k <+: (d.calls p).getD k []

end Data

variable {d d' : Data P} {p : P}

/-- What holds at the points of `pipewrite` and `piperead` -/
def asserts (p : P) (k : Point P) (d : Data P) : Prop :=
  match k with
  | .writeAcquire bytes => d.Wrote p bytes 0
  | .writeLoop bytes i _ | .writeFull bytes i _ | .writeKilled bytes i _ | .writeWakeup bytes i
  | .writeSleep bytes i => d.Wrote p bytes i
  | .writeDone bytes => d.Wrote p bytes bytes.length
  | .writeReturn r => 0 ≤ r → ∃ bytes, d.Wrote p bytes bytes.length ∧ r = bytes.length
  | .readCopy _ i => i = 0 → d.buf.empty = true → d.buf.writeopen = false
  | .readWakeup n i => i = 0 → 0 < n → d.buf.empty = true ∧ d.buf.writeopen = false
  | .readReturn n r => r = 0 → 0 < n → d.buf.empty = true ∧ d.buf.writeopen = false
  | _ => True

namespace Data.Fifo

variable (h : d.Fifo)
include h

theorem empty_iff : d.buf.empty = true ↔ d.out.length = d.bytes.length := by
  have hwrap := h.ring.empty_iff (m := 2 ^ 32) (by decide)
  simpa [Buf.empty, h.nread, h.nwrite] using hwrap

theorem full_iff : d.buf.full = true ↔ d.bytes.length = d.out.length + PIPESIZE := by
  have hwrap := h.ring.full_iff (m := 2 ^ 32) (by decide)
  simpa [Buf.full, h.nread, h.nwrite] using hwrap

end Data.Fifo

theorem stored_store (p q : P) (k : Nat) (x : UInt8) :
    (d.store p x).stored q k =
      if p = q ∧ d.lastCall p = k then d.stored q k ++ [x] else d.stored q k := by
  rw [Data.stored, Data.store, List.filter_append, List.map_append]
  split
  next he => simp [← he.1, ← he.2, Data.stored, Data.lastCall]
  next he => simpa [Data.stored, Data.lastCall] using he

theorem Data.Wrote.store {bytes : List UInt8} {i : Nat} {x : UInt8} (hw : d.Wrote p bytes i)
    (hx : bytes[i]? = some x) : (d.store p x).Wrote p bytes (i + 1) := by
  refine ⟨hw.1, ?_⟩
  change (d.store p x).stored p (d.lastCall p) = _
  rw [stored_store, if_pos ⟨rfl, rfl⟩, hw.2, List.take_add_one, hx]
  rfl

theorem Data.Fifo.store (h : d.Fifo) {bytes : List UInt8} {i : Nat} {x : UInt8}
    (hw : d.Wrote p bytes i) (hx : bytes[i]? = some x) (hfull : ¬d.buf.full = true) :
    (d.store p x).Fifo := by
  have hbytes : (d.store p x).bytes = d.bytes ++ [x] := by simp [Data.bytes, Data.store]
  have hroom : d.bytes.length < d.out.length + PIPESIZE := by
    have hle := h.ring.room
    have hne := mt h.full_iff.mpr hfull
    omega
  refine ⟨?_, h.nread, ?_, ?_, fun q k => ?_⟩
  · have hcell : d.buf.nwrite % PIPESIZE = d.bytes.length % PIPESIZE := by
      rw [h.nwrite]
      exact Ring.cell_mod (by decide) _
    have hpush := h.ring.push hroom x
    rw [← hcell] at hpush
    rw [hbytes]
    exact hpush
  · rw [hbytes]
    change (d.buf.nwrite + 1) % 2 ^ 32 = _
    rw [h.nwrite, List.length_append, List.length_singleton, Nat.mod_add_mod]
  · change d.out = (d.store p x).bytes.take d.out.length
    rw [hbytes, List.take_append_of_le_length h.ring.done_le]
    exact h.out
  · change (d.store p x).stored q k <+: (d.calls q).getD k []
    by_cases hq : p = q ∧ d.lastCall p = k
    · obtain ⟨rfl, rfl⟩ := hq
      have hget : (d.calls p).getD (d.lastCall p) [] = bytes := by
        rw [List.getD_eq_getElem?_getD, Data.lastCall, ← List.getLast?_eq_getElem?, hw.1]
        rfl
      have hgrow : (d.store p x).stored p (d.lastCall p) = bytes.take (i + 1) := (hw.store hx).2
      rw [hgrow, hget]
      exact List.take_prefix _ _
    · rw [stored_store, if_neg hq]
      exact h.calls q k

theorem Data.Fifo.take (h : d.Fifo) (hempty : ¬d.buf.empty = true) : d.take.Fifo := by
  have hdata : d.out.length < d.bytes.length := by
    have hle := h.ring.done_le
    have hne := mt h.empty_iff.mpr hempty
    omega
  obtain ⟨hcell, hring⟩ := h.ring.pop hdata
  have hhead : d.buf.head = d.bytes[d.out.length] := by
    rw [← hcell, Buf.head, h.nread, Ring.cell_mod (by decide)]
  have hlen : d.take.out.length = d.out.length + 1 := by simp [Data.take]
  refine ⟨?_, ?_, h.nwrite, ?_, h.calls⟩
  · rw [hlen]
    exact hring
  · rw [hlen]
    change (d.buf.nread + 1) % 2 ^ 32 = _
    rw [h.nread, Nat.mod_add_mod]
  · rw [hlen]
    change d.out ++ [d.buf.head] = d.bytes.take (d.out.length + 1)
    rw [List.take_add_one, ← h.out, hhead, List.getElem?_eq_getElem hdata]
    rfl

/-- A new call has stored nothing. -/
theorem Data.Fifo.call (h : d.Fifo) (bytes : List UInt8) :
    let d' := { d with calls := Function.update d.calls p (d.calls p ++ [bytes]) }
    d'.Fifo ∧ d'.Wrote p bytes 0 := by
  intro d'
  have hself : d'.calls p = d.calls p ++ [bytes] := Function.update_self ..
  refine ⟨⟨h.ring, h.nread, h.nwrite, h.out, fun q k => ?_⟩, ?_, ?_⟩
  · have hold := h.calls q k
    change d.stored q k <+: _
    by_cases hq : q = p
    · subst q
      rw [hself]
      refine hold.trans ?_
      by_cases hk : k < (d.calls p).length
      · simp [List.getD_eq_getElem?_getD, List.getElem?_append_left hk]
      · simp [List.getD_eq_getElem?_getD, hk]
    · rwa [show d'.calls q = d.calls q from Function.update_of_ne hq ..]
  · rw [hself]
    simp
  · have hnone := h.calls p (d.calls p).length
    rw [List.getD_eq_getElem?_getD, List.getElem?_eq_none (Nat.le_refl _)] at hnone
    have hlast : d'.lastCall p = (d.calls p).length := by simp [Data.lastCall, hself]
    rw [hlast]
    exact List.prefix_nil.mp hnone

theorem fifo_own {k : Point P} (hd : d.Fifo) (h : asserts p k d) :
    (code p k).verifies Data.Fifo (asserts p) d := by
  cases k with
  | user =>
    intro k hk
    cases k with
    | writeTrap | readTrap | closeCall | shareCall => trivial
    | _ => cases hk
  | writeTrap | readTrap => exact ⟨trivial, trivial⟩
  | writeCall bytes =>
    dsimp only [code, Act.verifies]
    split
    · exact hd.call bytes
    · exact ⟨hd, trivial⟩
  | writeLoop bytes i stored =>
    dsimp only [code, Act.verifies, writeLoop]
    split
    next hend =>
      have hlen : bytes.length ≤ i := List.getElem?_eq_none_iff.mp hend
      refine ⟨hd, h.1, ?_⟩
      rw [List.take_length, h.2, List.take_of_length_le hlen]
    next x hx =>
      split
      · exact ⟨hd, h⟩
      next hfull => exact ⟨hd.store h hx hfull, h.store hx⟩
  | writeFull =>
    refine ⟨hd, ?_⟩
    dsimp only
    split
    · exact nofun
    · exact h
  | writeKilled => exact ⟨nofun, h⟩
  | writeDone bytes => exact fun _ => ⟨bytes, h, rfl⟩
  | readCall =>
    refine ⟨hd, ?_⟩
    dsimp only
    split <;> trivial
  | readLoop =>
    refine ⟨hd, ?_⟩
    dsimp only
    split
    · trivial
    next hgo =>
      intro _ hempty
      exact Bool.eq_false_iff.mpr fun hopen => hgo ⟨hempty, hopen⟩
  | readKilled => exact ⟨nofun, trivial⟩
  | readCopy n i =>
    dsimp only [code, Act.verifies, readCopy]
    split
    · split
      next hempty => exact ⟨hd, fun h0 _ => ⟨hempty, h h0 hempty⟩⟩
      next hempty => exact ⟨hd.take hempty, nofun⟩
    next hi => exact ⟨hd, fun h0 hn => by omega⟩
  | readWakeup n i => exact fun hi => h (by omega)
  | closeCall writable =>
    dsimp only [code, Act.verifies, fileclose]
    split
    · refine ⟨⟨hd.ring, hd.nread, hd.nwrite, hd.out, hd.calls⟩, ?_⟩
      split <;> trivial
    · exact ⟨hd, trivial⟩
  | closeMark writable =>
    refine ⟨?_, trivial⟩
    cases writable <;> exact ⟨hd.ring, hd.nread, hd.nwrite, hd.out, hd.calls⟩
  | shareCall q writable =>
    dsimp only [code, Act.verifies, share]
    split
    · exact ⟨⟨hd.ring, hd.nread, hd.nwrite, hd.out, hd.calls⟩, trivial⟩
    · exact ⟨hd, trivial⟩
  | writeAcquire | writeWakeup | writeSleep => exact h
  | writeReturn | readAcquire | readSleep | readReturn | closeAcquire | closeWakeup
  | closeRelease => trivial

/-- What an access to the data by `p` leaves to the others -/
structure Data.Apart (p : P) (d d' : Data P) : Prop where
  calls : ∀ q ≠ p, d'.calls q = d.calls q
  stored : ∀ q ≠ p, ∀ k, d'.stored q k = d.stored q k

theorem Data.Apart.of_log (hcalls : ∀ q ≠ p, d'.calls q = d.calls q) (hlog : d'.log = d.log) :
    d.Apart p d' :=
  ⟨hcalls, fun _ _ _ => by rw [Data.stored, hlog, Data.stored]⟩

theorem Data.Apart.wrote (h : d.Apart p d') {q : P} (hq : q ≠ p) {bytes : List UInt8} {i : Nat}
    (hw : d.Wrote q bytes i) : d'.Wrote q bytes i := by
  rw [Data.Wrote, Data.lastCall, h.calls q hq, h.stored q hq]
  exact hw

theorem apart_of_data {k : Point P} {f : Data P → Data P × Point P} (hact : code p k = .data f) :
    d.Apart p (f d).1 ∧ (k.holds = none → (f d).1.buf = d.buf) := by
  have hsame : d.Apart p d := .of_log (fun _ _ => rfl) rfl
  cases k with
  | writeCall =>
    cases hact
    dsimp only
    split
    · exact ⟨.of_log (fun q hq => Function.update_of_ne hq ..) rfl, fun _ => rfl⟩
    · exact ⟨hsame, fun _ => rfl⟩
  | writeLoop =>
    cases hact
    rw [writeLoop]
    split
    · exact ⟨hsame, by rintro ⟨⟩⟩
    · split
      · exact ⟨hsame, by rintro ⟨⟩⟩
      · refine ⟨⟨fun _ _ => rfl, fun q hq k => ?_⟩, by rintro ⟨⟩⟩
        rw [stored_store, if_neg fun he => hq he.1.symm]
  | readCopy =>
    cases hact
    rw [readCopy]
    split
    · split
      · exact ⟨hsame, by rintro ⟨⟩⟩
      · exact ⟨.of_log (fun _ _ => rfl) rfl, by rintro ⟨⟩⟩
    · exact ⟨hsame, by rintro ⟨⟩⟩
  | closeCall | shareCall =>
    cases hact
    dsimp only [fileclose, share]
    split
    · exact ⟨.of_log (fun _ _ => rfl) rfl, fun _ => rfl⟩
    · exact ⟨hsame, fun _ => rfl⟩
  | closeMark =>
    cases hact
    exact ⟨.of_log (fun _ _ => rfl) rfl, by rintro ⟨⟩⟩
  | writeFull | readCall | readLoop =>
    cases hact
    exact ⟨hsame, fun _ => rfl⟩
  | _ => cases hact

theorem fifo_outline : Outline code Point.holds (Data.Fifo (P := P)) asserts where
  own := fifo_own
  others {p q k f d pc} hact hq _ _ hcalled hfree h := by
    obtain ⟨hapart, hbuf⟩ := apart_of_data hact (d := d)
    have hwrote {bytes : List UInt8} {i : Nat} (hw : d.Wrote q bytes i) := hapart.wrote hq hw
    cases pc with
    | sleep | sleepRelease | sleepMark | asleep =>
      -- `sleep` returns to the head of a loop.
      obtain ⟨k₀, hk₀⟩ := hcalled
      cases k₀ with
      | writeSleep =>
        cases hk₀
        exact hwrote h
      | readSleep =>
        cases hk₀
        trivial
      | _ => cases hk₀
    | code k' =>
      have hlocked : k'.holds = some () → (f d).1.buf = d.buf := by
        intro hk'
        cases hk : k.holds with
        | none => exact hbuf hk
        | some => exact absurd hk' (hfree _ hk)
      cases k' with
      | writeAcquire | writeLoop | writeFull | writeKilled | writeWakeup | writeSleep | writeDone =>
        exact hwrote h
      | writeReturn =>
        intro hr
        obtain ⟨bytes, hw, hlen⟩ := h hr
        exact ⟨bytes, hwrote hw, hlen⟩
      | readCopy | readWakeup | readReturn =>
        dsimp only [Pc.point, asserts] at h ⊢
        rw [hlocked rfl]
        exact h
      | _ => trivial

theorem fifo_init (p : P) (data : Nat → UInt8) :
    (Sys.init p data).Follows Data.Fifo asserts := by
  refine ⟨⟨⟨Nat.le_refl _, Nat.zero_le _, fun k _ hk => ?_⟩, rfl, rfl, rfl, fun q k => ?_⟩, fun q => ?_⟩
  · cases hk
  · exact List.nil_prefix
  · trivial

theorem Data.Fifo.contents (h : d.Fifo) :
    (d.buf.nwrite + (2 ^ 32 - d.buf.nread)) % 2 ^ 32 = d.bytes.length - d.out.length ∧
      d.bytes = d.out ++ d.buf.contents := by
  have hlen : (d.buf.nwrite + (2 ^ 32 - d.buf.nread)) % 2 ^ 32 = d.bytes.length - d.out.length := by
    rw [h.nwrite, h.nread]
    exact h.ring.length_sub (by decide)
  refine ⟨hlen, ?_⟩
  have hdrop : d.buf.contents = d.bytes.drop d.out.length := by
    refine List.ext_getElem ?_ ?_
    · rw [Buf.contents, hlen]
      simp
    · intro k hk hk'
      rw [List.length_drop] at hk'
      have hcell := h.ring.cell (d.out.length + k) (by omega) (by omega)
      have hindex : (d.buf.nread + k) % 2 ^ 32 % PIPESIZE = (d.out.length + k) % PIPESIZE := by
        rw [h.nread, Nat.mod_add_mod, Ring.cell_mod (by decide)]
      simp only [Buf.contents, List.getElem_map, List.getElem_range, List.getElem_drop]
      rw [hindex, hcell]
  calc d.bytes = d.bytes.take d.out.length ++ d.bytes.drop d.out.length :=
        (List.take_append_drop _ _).symm
    _ = d.out ++ d.buf.contents := by rw [← h.out, hdrop]

/-- In every state that any interleaving reaches: at most `PIPESIZE` bytes are buffered; what was
stored is what was delivered followed by what is buffered; every call of `pipewrite` has stored a
prefix of its bytes in order, and all of them if it returns their number; and a `piperead` of
`n > 0` bytes that returns 0 does so on an empty pipe whose write end is closed. -/
theorem pipe_fifo {p : P} {data : Nat → UInt8} {s : Sys P}
    (h : Reach Sys.step (fun _ _ => True) (Sys.init p data) s) :
    (s.data.buf.nwrite + (2 ^ 32 - s.data.buf.nread)) % 2 ^ 32 ≤ PIPESIZE ∧
    s.data.bytes = s.data.out ++ s.data.buf.contents ∧
    (∀ q k bytes, (s.data.calls q)[k]? = some bytes → s.data.stored q k <+: bytes) ∧
    (∀ q r, (s.thread q).pc = .code (.writeReturn r) → 0 ≤ r → ∃ bytes,
      (s.data.calls q).getLast? = some bytes ∧ s.data.stored q (s.data.lastCall q) = bytes ∧
        r = bytes.length) ∧
    (∀ q n, (s.thread q).pc = .code (.readReturn n 0) → 0 < n →
      s.data.buf.empty = true ∧ s.data.buf.writeopen = false) := by
  obtain ⟨-, hinv, hasserts⟩ : Locked code Point.holds s ∧ s.Follows Data.Fifo asserts :=
    h.invariant (I := fun s => Locked code Point.holds s ∧ s.Follows Data.Fifo asserts)
      ⟨locked_init p data, fifo_init p data⟩
      fun _ _ _ hi _ hs => ⟨hi.1.step code_keeps hs, fifo_outline.step hi.1 hi.2 hs⟩
  obtain ⟨hlen, hcontents⟩ := hinv.contents
  refine ⟨?_, hcontents, ?_, ?_, ?_⟩
  · have hroom := hinv.ring.room
    omega
  · intro q k bytes hk
    have hprefix := hinv.calls q k
    rwa [List.getD_eq_getElem?_getD, hk] at hprefix
  · intro q r hpc hr
    have hq := hasserts q
    rw [hpc] at hq
    obtain ⟨bytes, ⟨hlast, hstored⟩, hlen⟩ := hq hr
    rw [List.take_length] at hstored
    exact ⟨bytes, hlast, hstored, hlen⟩
  · intro q n hpc hn
    have hq := hasserts q
    rw [hpc] at hq
    exact hq rfl hn

/-- A writer and a reader share a pipe: two bytes are stored and one of them is delivered. -/
theorem pipe_fifo_twoBytes : ∃ s : Sys Bool, runEvents Sys.step (Sys.init true fun _ => 0)
        ([.go true (.shareCall false false), .run true, .go true (.writeTrap [7, 8]),
          .go false (.readTrap 1)] ++ List.replicate 8 (.run true) ++
          List.replicate 7 (.run false)) = .next s ∧
      s.data.out = [7] ∧ s.data.bytes = s.data.out ++ s.data.buf.contents := by
  have hrun : (runEvents Sys.step (Sys.init true fun _ => 0 : Sys Bool)
      ([.go true (.shareCall false false), .run true, .go true (.writeTrap [7, 8]),
        .go false (.readTrap 1)] ++ List.replicate 8 (.run true) ++
        List.replicate 7 (.run false))).holds
      fun s => s.data.out = [7] := by decide +kernel
  obtain ⟨s, hs, hout⟩ := Outcome.exists_of_holds hrun
  have hreach := Reach.of_runEvents .init _ (Along.of_forall (fun _ _ => trivial) _ _) hs
  exact ⟨s, hs, hout, (pipe_fifo hreach).2.1⟩

end Xv6.Pipe
