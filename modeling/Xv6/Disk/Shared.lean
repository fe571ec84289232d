import Xv6.Disk.Filewrite
import Xv6.Lib.Run

/-!
# Writers that share a file

Any number of processes call `filewrite` with the same `struct file`.  They take turns with the lock of the
inode, under which the offset is read and advanced.
-/

namespace Xv6

/-- Where a process is in `filewrite`, with the bytes from `addr + i` on and the result of `writei` -/
inductive WritePc where
  | idle
  /-- `begin_op()` -/
  | beginOp (src : List UInt8)
  /-- `ilock(f->ip)` -/
  | ilock (src : List UInt8)
  /-- `writei(f->ip, addr + i, f->off, n1)` -/
  | writei (src : List UInt8)
  /-- `f->off += r` -/
  | advance (src : List UInt8) (r : Int)
  /-- `iunlock(f->ip)` -/
  | iunlock (src : List UInt8) (r : Int)
  /-- `end_op()` and the tests of `r` -/
  | endOp (src : List UInt8) (r : Int)
  deriving DecidableEq

structure Shared (P : Type) where
  f : Opened
  /-- The process that has `f->ip->lock` -/
  lock : Option P
  pc : P → WritePc
  /-- History: the chunks in the order in which they were written -/
  written : List (P × List UInt8)
  /-- History: the buffers of the calls of each process -/
  issued : P → List (List UInt8)

variable {src : List UInt8}

namespace Shared

open Store Opened

variable {P : Type} [DecidableEq P]

inductive Event (P : Type) where
  /-- `p` calls `filewrite`. -/
  | call (p : P) (src : List UInt8)
  /-- `p` takes its next step. -/
  | step (p : P)
  /-- The rest of the system works on the disk. -/
  | other (disk : Store)

/-- At the head of the loop -/
def loop (src : List UInt8) : WritePc := if src = [] then .idle else .beginOp src

def goto (s : Shared P) (p : P) (c : WritePc) : Shared P := { s with pc := Function.update s.pc p c }

def stepOf (s : Shared P) (p : P) : Outcome FilewritePanic (Shared P) :=
  match s.pc p with
  | .idle => .blocked
  | .beginOp src =>
    if Op.ready s.f.disk .beginOp then
      match onDisk (Op.prog .beginOp) s.f with
      | .ok (_, f) => .next { s.goto p (.ilock src) with f }
      | .error e => .panic e
    else .blocked
  | .ilock src =>
    if s.lock = none then
      match onDisk (Store.ilock s.f.ip) s.f with
      | .ok (_, f) => .next { s.goto p (.writei src) with f, lock := some p }
      | .error e => .panic e
    else .blocked
  | .writei src =>
    match onDisk (Store.writei s.f.ip s.f.off (src.take maxChunk)) s.f with
    | .ok (r, f) => .next { s.goto p (.advance src r) with
        f, written := if r < 0 then s.written else s.written ++ [(p, src.take maxChunk)] }
    | .error e => .panic e
  | .advance src r => .next { s.goto p (.iunlock src r) with
      f := if r > 0 then { s.f with off := (s.f.off + r.toNat) % 2 ^ 32 } else s.f }
  | .iunlock src r => .next { s.goto p (.endOp src r) with lock := none }
  | .endOp src r =>
    match onDisk (Op.prog .endOp) s.f with
    | .ok (_, f) =>
      if r < 0 then .next { s.goto p .idle with f }
      else if r ≠ (src.take maxChunk).length then .panic .shortFilewrite
      else .next { s.goto p (loop (src.drop maxChunk)) with f }
    | .error e => .panic e

def step (s : Shared P) : Event P → Outcome FilewritePanic (Shared P)
  | .call p src =>
    match s.pc p with
    | .idle => .next { s.goto p (loop src) with
        issued := Function.update s.issued p (s.issued p ++ [src]) }
    | _ => .blocked
  | .step p => s.stepOf p
  | .other disk => .next { s with f := { s.f with disk } }

/-- No writer has begun. -/
def init (f : Opened) : Shared P := ⟨f, none, fun _ => .idle, [], fun _ => []⟩

/-- The disk is changed, but not this file. -/
structure Elsewhere (f : Opened) (disk : Store) : Prop where
  regular : Regular { f with disk }
  contents : disk.contents f.ip = f.contents
  held : f.disk.held f.ip → disk.held f.ip

/-- If `p` writes now, the file stays within the largest size. -/
def Within (s : Shared P) (p : P) : Prop :=
  match s.pc p with
  | .writei src => s.f.off + (src.take maxChunk).length ≤ MAXFILE * BSIZE
  | _ => True

/-- The file stays within the largest size, and only the processes of the machine write it. -/
def Permitted (s : Shared P) : Event P → Prop
  | .call _ _ => True
  | .step p => s.Within p
  | .other disk => Elsewhere s.f disk

/-- The chunks that the loop of `filewrite` makes of a buffer, in `n` rounds at most -/
def piecesIn : Nat → List UInt8 → List (List UInt8)
  | 0, _ => []
  | n + 1, src => if src = [] then [] else src.take maxChunk :: piecesIn n (src.drop maxChunk)

def pieces (src : List UInt8) : List (List UInt8) := piecesIn src.length src

theorem piecesIn_eq {n m : Nat} (hn : src.length ≤ n) (hm : src.length ≤ m) :
    piecesIn n src = piecesIn m src := by
  induction n generalizing src m with
  | zero =>
    obtain rfl : src = [] := List.length_eq_zero_iff.mp (by omega)
    cases m <;> rfl
  | succ n ih =>
    cases m with
    | zero =>
      obtain rfl : src = [] := List.length_eq_zero_iff.mp (by omega)
      rfl
    | succ m =>
      have hchunk : 0 < maxChunk := by decide
      rw [piecesIn, piecesIn]
      split
      · rfl
      · rename_i hne
        have hpos := List.length_pos_iff.mpr hne
        rw [ih (m := m)] <;> rw [List.length_drop] <;> omega

theorem pieces_nil : pieces [] = [] := rfl

theorem pieces_cons (h : src ≠ []) :
    pieces src = src.take maxChunk :: pieces (src.drop maxChunk) := by
  have hpos := List.length_pos_iff.mpr h
  have hchunk : 0 < maxChunk := by decide
  obtain ⟨n, hn⟩ := Nat.exists_eq_succ_of_ne_zero (Nat.ne_of_gt hpos)
  have hdrop : (src.drop maxChunk).length ≤ n := by
    rw [List.length_drop]
    omega
  rw [pieces, hn, piecesIn, if_neg h, pieces, piecesIn_eq hdrop (Nat.le_refl _)]

theorem pieces_small (h : src ≠ []) (hlen : src.length ≤ maxChunk) :
    pieces src = [src] := by
  rw [pieces_cons h, List.take_of_length_le hlen, List.drop_eq_nil_of_le hlen, pieces_nil]

end Shared

namespace Opened

open Store

theorem onDisk_beginOp (f : Opened) : onDisk (Op.prog .beginOp) f =
    .ok ((), { f with disk := { f.disk with outstanding := f.disk.outstanding + 1 } }) := rfl

theorem onDisk_endOp (f : Opened) : onDisk (Op.prog .endOp) f =
    .ok ((), { f with disk := { f.disk with
      outstanding := f.disk.outstanding - 1
      lh := if f.disk.outstanding = 1 then [] else f.disk.lh } }) := rfl

theorem Regular.ilock {f f' : Opened} (h : f.Regular) {x : Unit}
    (hrun : onDisk (Store.ilock f.ip) f = .ok (x, f')) :
    f'.Regular ∧ f'.contents = f.contents ∧ f'.off = f.off ∧ f'.disk.held f'.ip := by
  have hwp : Run.wp (fun _ => True) (onDisk (Store.ilock f.ip)) (fun _ f' =>
      f'.Regular ∧ f'.contents = f.contents ∧ f'.off = f.off ∧ f'.disk.held f'.ip) f := by
    refine wp_onDisk (wp_ilock_allocated h.sound h.allocated h.ref fun t hs hheld hcur hsame => ?_)
    refine ⟨⟨hs, hheld.1, hs.valid hheld.2, ?_⟩, ?_, rfl, hheld⟩
    · exact (hcur f.ip).symm ▸ h.type
    · change t.contents f.ip = f.disk.contents f.ip
      rw [Store.contents, Store.contents, hcur, hsame]
  exact Run.wp_ok (Q := fun _ (f' : Opened) => f'.Regular ∧ f'.contents = f.contents ∧ f'.off = f.off ∧
    f'.disk.held f'.ip) hwp hrun

theorem Regular.writei {f f' : Opened} (h : f.Regular) (hheld : f.disk.held f.ip) {l : List UInt8}
    (hfits : f.Fits l.length) {r : Int} (hrun : onDisk (Store.writei f.ip f.off l) f = .ok (r, f')) :
    r = l.length ∧ f'.Regular ∧ f'.contents = splice f.contents f.off l ∧ f'.off = f.off ∧
      f'.disk.held f'.ip := by
  have hcur : (f.disk.inode f.ip).d = f.disk.cur f.ip := (cur_of_valid hheld.2).symm
  have hsize : (f.disk.inode f.ip).d.size = f.contents.length := by
    rw [hcur]
    exact (length_contents ..).symm
  have htype : (f.disk.inode f.ip).d.type = T_FILE := by rw [hcur, h.type]
  have hdev : (f.disk.inode f.ip).d.type ≠ T_DEV := by
    rw [htype]
    decide
  have hmax : MAXFILE * BSIZE < 2 ^ 31 := by decide
  have hin : f.disk.InRange f.ip f.off l.length := by
    obtain ⟨hoff, hle⟩ := hfits
    refine ⟨hdev, hsize ▸ hoff, ?_, hle⟩
    rw [Nat.mod_eq_of_lt (by omega)]
    omega
  have hwp : Run.wp (fun _ => True) (onDisk (Store.writei f.ip f.off l)) (fun r f' =>
      r = l.length ∧ f'.Regular ∧ f'.contents = splice f.contents f.off l ∧ f'.off = f.off ∧
      f'.disk.held f'.ip) f := by
    refine wp_onDisk (wp_writei_file h.sound hheld.2 (fun _ => ?_) (fun he => absurd he hdev)
      (fun _ hout => absurd hin hout) fun _ disk hw => ?_)
    · exact ⟨fun he => absurd trivial he, fun he => absurd trivial he, fun he => absurd trivial he⟩
    · have hvalid := hw.valid.trans hheld.2
      have hdisk : disk.held f.ip := ⟨hw.ref ▸ hheld.1, hvalid⟩
      refine ⟨rfl, ⟨hw.sound, hdisk.1, hw.sound.valid hvalid, ?_⟩,
        hw.contents hheld.2 (hsize ▸ hfits.1), rfl, hdisk⟩
      change (disk.cur f.ip).type = T_FILE
      rw [cur_of_valid hvalid, hw.node.type, htype]
  exact Run.wp_ok (Q := fun (r : Int) (f' : Opened) => r = l.length ∧ f'.Regular ∧ f'.contents = splice f.contents f.off l ∧
    f'.off = f.off ∧ f'.disk.held f'.ip) hwp hrun

end Opened

variable {c : WritePc}

namespace WritePc

/-- The bytes that are not written yet -/
def pending : WritePc → List UInt8
  | idle => []
  | beginOp src | ilock src | writei src => src
  | advance src _ | iunlock src _ | endOp src _ => src.drop Opened.maxChunk

/-- The process has the lock of the inode. -/
def holds : WritePc → Bool
  | writei _ | advance _ _ | iunlock _ _ => true
  | _ => false

/-- Bytes that are written, but not counted in the offset -/
def inFlight : WritePc → Nat
  | advance _ r => r.toNat
  | _ => 0

/-- Something is left to write, and what was written is the whole chunk. -/
def Whole : WritePc → Prop
  | idle => True
  | beginOp src | ilock src | writei src => src ≠ []
  | advance src r | iunlock src r | endOp src r => r = (src.take Opened.maxChunk).length

theorem inFlight_eq_zero (h : c.holds = false) : c.inFlight = 0 := by
  cases c with
  | advance src r => cases h
  | _ => rfl

end WritePc

namespace Shared

open Store Opened

variable {P : Type} [DecidableEq P] {s s' : Shared P} {p : P} {c₀ : List UInt8} {off₀ : Nat}

theorem pending_loop (src : List UInt8) : (loop src).pending = src := by
  rw [loop]
  split
  · rename_i h
    rw [h]
    rfl
  · rfl

theorem holds_loop (src : List UInt8) : (loop src).holds = false := by
  rw [loop]
  split <;> rfl

theorem whole_loop (src : List UInt8) : (loop src).Whole := by
  rw [loop]
  split
  · trivial
  · assumption

theorem inFlight_loop (src : List UInt8) : (loop src).inFlight = 0 := by
  rw [loop]
  split <;> rfl

/-- The bytes written so far -/
def bytes (s : Shared P) : List UInt8 := (s.written.map Prod.snd).flatten

/-- The chunks of one process -/
def chunks (written : List (P × List UInt8)) (p : P) : List (List UInt8) :=
  (written.filter fun w => w.1 = p).map Prod.snd

theorem chunks_self (written : List (P × List UInt8)) (p : P) (l : List UInt8) :
    chunks (written ++ [(p, l)]) p = chunks written p ++ [l] := by
  simp [chunks]

theorem chunks_other {q : P} (h : q ≠ p) (written : List (P × List UInt8)) (l : List UInt8) :
    chunks (written ++ [(p, l)]) q = chunks written q := by
  simp [chunks, Ne.symm h]

/-- Bytes that are written, but not counted in the offset -/
def inFlight (s : Shared P) : Nat :=
  match s.lock with
  | none => 0
  | some p => (s.pc p).inFlight

/-- The file has the bytes written in the place of what was there, and each process has written the first
chunks of what it was given. -/
structure Inv (c₀ : List UInt8) (off₀ : Nat) (s : Shared P) : Prop where
  regular : s.f.Regular
  start : off₀ ≤ c₀.length
  contents : s.f.contents = splice c₀ off₀ s.bytes
  off : s.f.off + s.inFlight = off₀ + s.bytes.length
  holds : ∀ p, (s.pc p).holds = true ↔ s.lock = some p
  held : s.lock ≠ none → s.f.disk.held s.f.ip
  whole : ∀ p, (s.pc p).Whole
  order : ∀ p, chunks s.written p ++ pieces (s.pc p).pending = (s.issued p).flatMap pieces

variable {f : Opened}

theorem Inv.init (h : f.Regular) (hoff : f.off ≤ f.contents.length) :
    (init f : Shared P).Inv f.contents f.off where
  regular := h
  start := hoff
  contents := (splice_nil ..).symm
  off := rfl
  holds _ := ⟨nofun, nofun⟩
  held h := absurd rfl h
  whole _ := trivial
  order _ := rfl

theorem Inv.lock_eq (h : s.Inv c₀ off₀) (hpc : s.pc p = c) (hc : c.holds = true) :
    s.lock = some p := (h.holds p).mp (hpc ▸ hc)

omit [DecidableEq P] in
theorem inFlight_eq (hholds : (s.pc p).holds = true ↔ s.lock = some p)
    (hl : s.lock = none ∨ s.lock = some p) : s.inFlight = (s.pc p).inFlight := by
  rw [inFlight]
  rcases hl with hl | hl
  · have hp : (s.pc p).holds = false := Bool.eq_false_iff.mpr fun hp => by
      rw [hholds.mp hp] at hl
      cases hl
    rw [hl, WritePc.inFlight_eq_zero hp]
  · rw [hl]

section

variable (h : s.Inv c₀ off₀)
include h

theorem Inv.le_length : off₀ + s.bytes.length ≤ s.f.contents.length := by
  rw [h.contents, length_splice h.start]
  exact le_max_right ..

theorem Inv.le_max : off₀ + s.bytes.length ≤ MAXFILE * BSIZE := by
  have hmapped := (h.regular.sound.mapped h.regular.allocated).1
  rw [← length_contents] at hmapped
  have hle := h.le_length
  change _ ≤ (s.f.disk.contents s.f.ip).length at hle
  simp only [blocksOf, BSIZE] at hmapped ⊢
  omega

section

variable (hregular : f.Regular) (hcontents : f.contents = s.f.contents)
  (hoff : f.off + c.inFlight = s.f.off + (s.pc p).inFlight)
include hregular hcontents hoff

theorem Inv.move {lock : Option P} {issued : P → List (List UInt8)}
    (hholds : c.holds = true ↔ lock = some p) (hothers : ∀ q, q ≠ p → (s.lock = some q ↔ lock = some q))
    (hheld : lock ≠ none → f.disk.held f.ip) (hwhole : c.Whole)
    (horder : chunks s.written p ++ pieces c.pending = (issued p).flatMap pieces)
    (hissued : ∀ q, q ≠ p → issued q = s.issued q) :
    Inv c₀ off₀ { s.goto p c with f, lock, issued } where
  regular := hregular
  start := h.start
  contents := hcontents.trans h.contents
  off := by
    have hsum := h.off
    change f.off + inFlight { s.goto p c with f, lock, issued } = off₀ + s.bytes.length
    have hself : (s.goto p c).pc p = c := Function.update_self ..
    by_cases hq : ∃ q, q ≠ p ∧ lock = some q
    · -- another process has the lock and keeps it
      obtain ⟨q, hne, rfl⟩ := hq
      have hlock := (hothers q hne).mpr rfl
      have hc : c.holds = false := Bool.eq_false_iff.mpr fun hc => hne (Option.some.inj (hholds.mp hc))
      have hp : (s.pc p).holds = false := Bool.eq_false_iff.mpr fun hp =>
        hne (Option.some.inj (hlock.symm.trans ((h.holds p).mp hp)))
      have hsame : inFlight { s.goto p c with f, lock := some q, issued } = s.inFlight := by
        rw [inFlight, inFlight, hlock]
        exact congrArg WritePc.inFlight (Function.update_of_ne hne ..)
      rw [WritePc.inFlight_eq_zero hc, WritePc.inFlight_eq_zero hp] at hoff
      omega
    · have hnew : lock = none ∨ lock = some p := by
        rcases lock with _ | q
        · exact .inl rfl
        · exact .inr (congrArg some (by_contra fun hne => hq ⟨q, hne, rfl⟩))
      have hold : s.lock = none ∨ s.lock = some p := by
        rcases hl : s.lock with _ | q
        · exact .inl rfl
        · refine .inr (congrArg some (by_contra fun hne => hq ⟨q, hne, (hothers q hne).mp hl⟩))
      have hholds' : ((s.goto p c).pc p).holds = true ↔ lock = some p := by rwa [hself]
      rw [inFlight_eq (p := p) hholds' hnew]
      rw [inFlight_eq (h.holds p) hold] at hsum
      change f.off + ((s.goto p c).pc p).inFlight = _
      rw [hself]
      omega
  holds := (Function.forall_update_iff s.pc fun q c => c.holds = true ↔ lock = some q).mpr
    ⟨hholds, fun q hq => (h.holds q).trans (hothers q hq)⟩
  held := hheld
  whole := (Function.forall_update_iff s.pc fun _ c => c.Whole).mpr ⟨hwhole, fun q _ => h.whole q⟩
  order := (Function.forall_update_iff s.pc fun q c =>
    chunks s.written q ++ pieces c.pending = (issued q).flatMap pieces).mpr
    ⟨horder, fun q hq => (hissued q hq).symm ▸ h.order q⟩

theorem Inv.goto (hheld : s.f.disk.held s.f.ip → f.disk.held f.ip) (hholds : c.holds = (s.pc p).holds)
    (hwhole : c.Whole) (hpending : c.pending = (s.pc p).pending) : Inv c₀ off₀ { s.goto p c with f } :=
  h.move hregular hcontents hoff (hholds ▸ h.holds p) (fun _ _ => Iff.rfl) (fun hl => hheld (h.held hl))
    hwhole (hpending ▸ h.order p) fun _ _ => rfl

end

theorem Inv.call (hpc : s.pc p = .idle) (src : List UInt8) :
    Inv c₀ off₀ { s.goto p (loop src) with
      issued := Function.update s.issued p (s.issued p ++ [src]) } := by
  have hholds := h.holds p
  have horder := h.order p
  rw [hpc] at hholds horder
  refine h.move h.regular rfl ?_ ?_ (fun _ _ => Iff.rfl) h.held (whole_loop src) ?_
    fun q hq => Function.update_of_ne hq ..
  · rw [inFlight_loop, hpc]
    rfl
  · rw [holds_loop]
    exact hholds
  · rw [WritePc.pending, pieces_nil, List.append_nil] at horder
    rw [pending_loop, Function.update_self, List.flatMap_append, ← horder, List.flatMap_singleton]

theorem Inv.acquire (hpc : s.pc p = .ilock src) (hlock : s.lock = none) (hregular : f.Regular)
    (hcontents : f.contents = s.f.contents) (hoff : f.off = s.f.off) (hheld : f.disk.held f.ip) :
    Inv c₀ off₀ { s.goto p (.writei src) with f, lock := some p } := by
  have hwhole := h.whole p
  have horder := h.order p
  rw [hpc] at hwhole horder
  refine h.move hregular hcontents ?_ ⟨fun _ => rfl, fun _ => rfl⟩ (fun q hq => ?_) (fun _ => hheld) hwhole
    horder fun _ _ => rfl
  · rw [hoff, hpc]
    rfl
  · rw [hlock]
    exact ⟨nofun, fun he => absurd (Option.some.inj he).symm hq⟩

theorem Inv.release {r : Int} (hpc : s.pc p = .iunlock src r) :
    Inv c₀ off₀ { s.goto p (.endOp src r) with lock := none } := by
  have hwhole := h.whole p
  have horder := h.order p
  rw [hpc] at hwhole horder
  refine h.move h.regular rfl ?_ ⟨nofun, nofun⟩ (fun q hq => ?_) (absurd rfl) hwhole horder fun _ _ => rfl
  · rw [hpc]
    rfl
  · rw [h.lock_eq hpc rfl]
    exact ⟨fun he => absurd (Option.some.inj he).symm hq, nofun⟩

theorem Inv.write (hpc : s.pc p = .writei src)
    (hfits : s.f.off + (src.take maxChunk).length ≤ MAXFILE * BSIZE) {r : Int}
    (hrun : onDisk (Store.writei s.f.ip s.f.off (src.take maxChunk)) s.f = .ok (r, f)) :
    r = (src.take maxChunk).length ∧ Inv c₀ off₀ { s.goto p (.advance src r) with
      f, written := s.written ++ [(p, src.take maxChunk)] } := by
  have hlock := h.lock_eq hpc rfl
  have hheld := h.held (by rw [hlock]; nofun)
  have hoff : s.f.off = off₀ + s.bytes.length := by
    have hsum := h.off
    rwa [inFlight_eq (h.holds p) (.inr hlock), hpc] at hsum
  obtain ⟨hr, hregular, hcontents, hsame, hheld'⟩ :=
    h.regular.writei hheld ⟨hoff ▸ h.le_length, hfits⟩ hrun
  have hself : (s.goto p (.advance src r)).pc p = .advance src r := Function.update_self ..
  set s₁ : Shared P := { s.goto p (.advance src r) with
    f, written := s.written ++ [(p, src.take maxChunk)] }
  have hbytes : s₁.bytes = s.bytes ++ src.take maxChunk := by
    change ((s.written ++ [(p, src.take maxChunk)]).map Prod.snd).flatten = _
    rw [List.map_append, List.flatten_append]
    simp [bytes]
  have hholds : ∀ q, (s₁.pc q).holds = true ↔ s₁.lock = some q :=
    (Function.forall_update_iff s.pc fun q c => c.holds = true ↔ s.lock = some q).mpr
      ⟨⟨fun _ => hlock, fun _ => rfl⟩, fun q _ => h.holds q⟩
  refine ⟨hr, hregular, h.start, ?_, ?_, hholds, fun _ => hheld', ?_, ?_⟩
  · change f.contents = _
    rw [hcontents, h.contents, hoff, splice_splice h.start, hbytes]
  · rw [inFlight_eq (hholds p) (.inr hlock)]
    change f.off + ((s.goto p (.advance src r)).pc p).inFlight = _
    rw [hself, hsame, hoff, hbytes, List.length_append, hr]
    exact Nat.add_assoc ..
  · exact (Function.forall_update_iff s.pc fun _ c => c.Whole).mpr ⟨hr, fun q _ => h.whole q⟩
  · refine (Function.forall_update_iff s.pc fun q c =>
      chunks (s.written ++ [(p, src.take maxChunk)]) q ++ pieces c.pending =
        (s.issued q).flatMap pieces).mpr ⟨?_, fun q hq => ?_⟩
    · have hne := h.whole p
      have horder := h.order p
      rw [hpc] at hne horder
      rw [WritePc.pending, pieces_cons hne] at horder
      rw [chunks_self, List.append_assoc]
      exact horder
    · rw [chunks_other hq]
      exact h.order q

/-- `f->off += r` -/
theorem Inv.advance {r : Int} (hpc : s.pc p = .advance src r) :
    Inv c₀ off₀ { s.goto p (.iunlock src r) with
      f := if r > 0 then { s.f with off := (s.f.off + r.toNat) % 2 ^ 32 } else s.f } := by
  have hwhole := h.whole p
  have hsum := h.off
  have hle := h.le_max
  have hmax : MAXFILE * BSIZE < 2 ^ 32 := by decide
  rw [inFlight_eq (h.holds p) (.inr (h.lock_eq hpc rfl)), hpc, WritePc.inFlight] at hsum
  rw [hpc, WritePc.Whole] at hwhole
  refine h.goto ?_ ?_ ?_ ?_ (by rw [hpc]; rfl) hwhole (by rw [hpc]; rfl)
  · split
    · exact ⟨h.regular.sound, h.regular.ref, h.regular.allocated, h.regular.type⟩
    · exact h.regular
  · split <;> rfl
  · rw [hpc]
    split
    · exact Nat.mod_eq_of_lt (by omega)
    · have hr : r = 0 := by omega
      rw [hr]
      rfl
  · split <;> exact id

theorem Inv.stepOf (hok : s.Permitted (.step p)) (hstep : s.stepOf p = .next s') :
    s'.Inv c₀ off₀ := by
  rw [Shared.stepOf] at hstep
  split at hstep
  · cases hstep
  · rename_i src hpc
    split at hstep
    · rw [onDisk_beginOp] at hstep
      cases hstep
      exact h.goto (h.regular.relog _ _) rfl (by rw [hpc]; rfl) id (by rw [hpc]; rfl)
        (by have hw := h.whole p; rwa [hpc] at hw) (by rw [hpc]; rfl)
    · cases hstep
  · rename_i src hpc
    split at hstep
    · rename_i hlock
      split at hstep
      · rename_i f hlocked
        cases hstep
        obtain ⟨hregular, hcontents, hoff, hheld⟩ := h.regular.ilock hlocked
        exact h.acquire hpc hlock hregular hcontents hoff hheld
      · cases hstep
    · cases hstep
  · rename_i src hpc
    split at hstep
    · rename_i r f hrun
      cases hstep
      have hfits : s.Within p := hok
      rw [Within, hpc] at hfits
      obtain ⟨hr, hinv⟩ := h.write hpc hfits hrun
      rw [if_neg (by omega)]
      exact hinv
    · cases hstep
  · rename_i src r hpc
    cases hstep
    exact h.advance hpc
  · rename_i src r hpc
    cases hstep
    exact h.release hpc
  · rename_i src r hpc
    rw [onDisk_endOp] at hstep
    have hr : r = (src.take maxChunk).length := by
      have hw := h.whole p
      rwa [hpc] at hw
    dsimp only at hstep
    rw [if_neg (by omega), if_neg (by omega)] at hstep
    cases hstep
    exact h.goto (h.regular.relog _ _) rfl (by rw [hpc, inFlight_loop]; rfl) id (by rw [hpc, holds_loop]; rfl)
      (whole_loop _) (by rw [hpc, pending_loop]; rfl)

theorem Inv.step {a : Event P} (hok : s.Permitted a) (hstep : s.step a = .next s') :
    s'.Inv c₀ off₀ := by
  cases a with
  | call p src =>
    rw [Shared.step] at hstep
    split at hstep
    · rename_i hpc
      cases hstep
      exact h.call hpc src
    · cases hstep
  | step p => exact h.stepOf hok hstep
  | other disk =>
    cases hstep
    obtain ⟨hregular, hcontents, hheld⟩ : Elsewhere s.f disk := hok
    exact ⟨hregular, h.start, hcontents.trans h.contents, h.off, h.holds, fun hl => hheld (h.held hl),
      h.whole, h.order⟩

end

theorem Inv.reach (hf : f.Regular) (hoff : f.off ≤ f.contents.length)
    (h : Reach Shared.step Permitted (Shared.init f) s) : s.Inv f.contents f.off :=
  h.invariant (Inv.init hf hoff) fun _ _ _ hs hok hstep => hs.step hok hstep

/-- Whatever the order in which the processes run, the chunks are in the file one behind the other, from the
offset at the beginning on and in the place of what was there.  Each process has written the chunks of its
calls once and in their order, and the offset counts them all. -/
theorem shared_writes {f : Opened} (hf : f.Regular) (hoff : f.off ≤ f.contents.length)
    (h : Reach step Permitted (init f) s) :
    s.f.contents = splice f.contents f.off (s.written.map Prod.snd).flatten ∧
    (∀ p, chunks s.written p ++ pieces (s.pc p).pending = (s.issued p).flatMap pieces) ∧
    ((∀ p, s.pc p = .idle) → s.f.off = f.off + (s.written.map Prod.snd).flatten.length) ∧
    ∀ p, s.pc p = .idle → ∀ src ∈ s.issued p, src ≠ [] → src.length ≤ maxChunk → (p, src) ∈ s.written := by
  have hinv := Inv.reach hf hoff h
  refine ⟨hinv.contents, hinv.order, fun hidle => ?_, fun p hidle src hsrc hne hlen => ?_⟩
  · have hsum := hinv.off
    have hlock : s.lock = none := by
      cases hl : s.lock with
      | none => rfl
      | some p =>
        have hp := (hinv.holds p).mpr hl
        rw [hidle p] at hp
        cases hp
    rwa [inFlight, hlock] at hsum
  · have horder := hinv.order p
    rw [hidle, WritePc.pending, pieces_nil, List.append_nil] at horder
    have hmem : src ∈ chunks s.written p := by
      rw [horder, List.mem_flatMap]
      exact ⟨src, hsrc, by rw [pieces_small hne hlen]; exact List.mem_singleton_self src⟩
    obtain ⟨⟨q, l⟩, hw, rfl⟩ := List.mem_map.mp hmem
    rw [List.mem_filter, decide_eq_true_eq] at hw
    obtain ⟨hw, rfl⟩ := hw
    exact hw

/-- Permitted without the rest of the system -/
def Alone (s : Shared P) : Event P → Prop
  | .call _ _ => True
  | .step p => s.Within p
  | .other _ => False

instance (s : Shared P) (p : P) : Decidable (s.Within p) := by
  rw [Within]
  split <;> infer_instance

instance (s : Shared P) : (a : Event P) → Decidable (s.Alone a)
  | .call _ _ => .isTrue trivial
  | .step p => inferInstanceAs (Decidable (s.Within p))
  | .other _ => .isFalse id

/-- The two calls are made at the same time. -/
def twoWriters : List (Event Bool) :=
  [.call false [7], .call true [8], .step false, .step false, .step true, .step false, .step false,
    .step false, .step true, .step false] ++ List.replicate 4 (.step true)

omit [DecidableEq P] in
theorem Alone.permitted {s : Shared P} {a : Event P} (h : s.Alone a) : s.Permitted a := by
  cases a with
  | call p src => trivial
  | step p => exact h
  | other disk => exact h.elim

/-- A file of two bytes is opened, and written by two processes or by one. -/
theorem written_makeFile : ∃ f : Opened, f.Regular ∧ f.contents = [104, 105] ∧ f.off = 0 ∧
    (∃ s : Shared Bool, Reach step Permitted (init f) s ∧ (∀ p, s.pc p = .idle) ∧
      s.written = [(false, [7]), (true, [8])]) ∧
    ∃ s : Shared Unit, Reach step Permitted (init f) s ∧ (∀ p, s.pc p = .idle) ∧
      s.written = [((), [7])] := by
  obtain ⟨s, hrun, hheld, htype, hcontents, ⟨htwo, htwo'⟩, hone, hone'⟩ := Outcome.exists_of_holds
    (r := runEvents Store.step blank makeFile)
    (Q := fun s : Store => s.held 1 ∧ (s.cur 1).type = T_FILE ∧ s.contents 1 = [104, 105] ∧
      ((runEvents step (init (opened s)) twoWriters).holds (fun t => (∀ p, t.pc p = .idle) ∧
        t.written = [(false, [7]), (true, [8])]) ∧ Along step Alone (init (opened s)) twoWriters) ∧
      (runEvents step (init (opened s)) (.call () [7] :: List.replicate 6 (.step ()))).holds (fun t =>
        (∀ p, t.pc p = .idle) ∧ t.written = [((), [7])]) ∧
      Along step Alone (init (opened s)) (.call () [7] :: List.replicate 6 (.step ())))
    (by decide +kernel)
  have hsound : s.Sound := blank_sound.reach
    (.of_runEvents .init makeFile (Along.of_forall (fun _ _ => trivial) _ _) hrun)
  refine ⟨opened s, ⟨hsound, hheld.1, hsound.valid hheld.2, htype⟩, hcontents, rfl, ?_, ?_⟩
  · obtain ⟨t, ht, hidle, hwritten⟩ := Outcome.exists_of_holds htwo
    exact ⟨t, (Reach.of_runEvents .init _ htwo' ht).mono fun _ _ => Alone.permitted, hidle, hwritten⟩
  · obtain ⟨t, ht, hidle, hwritten⟩ := Outcome.exists_of_holds hone
    exact ⟨t, (Reach.of_runEvents .init _ hone' ht).mono fun _ _ => Alone.permitted, hidle, hwritten⟩

theorem shared_writes_two : ∃ (f : Opened) (s : Shared Bool), f.Regular ∧
    Reach step Permitted (init f) s ∧ s.written = [(false, [7]), (true, [8])] ∧ s.f.contents = [7, 8] ∧
    s.f.off = 2 := by
  obtain ⟨f, hf, hcontents, hoff, ⟨s, hs, hidle, hwritten⟩, -⟩ := written_makeFile
  obtain ⟨hbytes, -, hend, -⟩ := shared_writes hf (by rw [hoff]; exact Nat.zero_le _) hs
  have hend := hend hidle
  rw [hcontents, hoff, hwritten] at hbytes
  rw [hoff, hwritten] at hend
  exact ⟨f, s, hf, hs, hwritten, hbytes, hend⟩

/-- What is written does not remove what the file had beyond it. -/
theorem shared_writes_leave : ∃ (f : Opened) (s : Shared Unit), f.Regular ∧ f.off ≤ f.contents.length ∧
    Reach step Permitted (init f) s ∧ (∀ p, s.pc p = .idle) ∧
    s.f.contents.drop f.off ≠ (s.written.map Prod.snd).flatten := by
  obtain ⟨f, hf, hcontents, hoff, -, s, hs, hidle, hwritten⟩ := written_makeFile
  have hle : f.off ≤ f.contents.length := by
    rw [hoff]
    exact Nat.zero_le _
  have hinv := Inv.reach hf hle hs
  refine ⟨f, s, hf, hle, hs, hidle, ?_⟩
  rw [hinv.contents, bytes, hwritten, hcontents, hoff]
  decide

end Shared

end Xv6
