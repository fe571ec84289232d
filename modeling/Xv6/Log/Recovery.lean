import Mathlib.Data.List.Basic
import Mathlib.Logic.Function.Basic
import Xv6.Lib.Bytes
import Xv6.Param

/-!
# The redo log on disk

`commit` and `recover_from_log` of `log.c`, with every block write they send to the disk
recorded in order, so that a crash is a cut of that record.  The disk is in one of three
phases at every cut: the old contents under an empty header, a complete log under its header,
or the new contents under an empty header.  Recovery moves a complete log to the new contents
and leaves the other two phases alone, however often it is itself cut.
-/

namespace Xv6

open Function (update_of_ne)

abbrev Block : Type := Bytes BSIZE
abbrev Disk : Type := Nat → Block

/-- What `commit` and `recover_from_log` read and write.  A buffer without `B_DIRTY` holds what
the disk holds, so only the dirty ones are kept apart from the disk. -/
structure LogState where
  start : Nat
  disk : Disk
  dirty : Nat → Option Block
  /-- `lh.block[0..n)` -/
  lh : List Nat
  /-- Block writes sent to the disk, oldest first. -/
  written : List (Nat × Block)

def bread (s : LogState) (b : Nat) : Block := (s.dirty b).getD (s.disk b)

def bwrite (s : LogState) (b : Nat) (data : Block) : LogState :=
  { s with
    disk := Function.update s.disk b data
    dirty := Function.update s.dirty b none
    written := s.written ++ [(b, data)] }

def writeLogFrom (s : LogState) (tail : Nat) : List Nat → LogState
  | [] => s
  | b :: bs => writeLogFrom (bwrite s (s.start + tail + 1) (bread s b)) (tail + 1) bs

def writeLog (s : LogState) : LogState := writeLogFrom s 0 s.lh

def installFrom (s : LogState) (tail : Nat) : List Nat → LogState
  | [] => s
  | b :: bs => installFrom (bwrite s b (bread s (s.start + tail + 1))) (tail + 1) bs

def installTrans (s : LogState) : LogState := installFrom s 0 s.lh

/-- `hb->block[i] = lh.block[i]` from index `i` on. -/
def putBlocks (hb : Block) (i : Nat) : List Nat → Block
  | [] => hb
  | b :: bs => putBlocks (hb.putWord (i + 1) b) (i + 1) bs

def writeHead (s : LogState) : LogState :=
  bwrite s s.start (putBlocks ((bread s s.start).putWord 0 s.lh.length) 0 s.lh)

/-- Iterations of `for (i = 0; i < n; i++)` for the signed `n` of a header block. -/
def headerCount (hb : Block) : Nat := if hb.word 0 < 2 ^ 31 then hb.word 0 else 0

def headerBlocks (hb : Block) : List Nat :=
  (List.range (headerCount hb)).map fun i => hb.word (i + 1)

def readHead (s : LogState) : LogState := { s with lh := headerBlocks (bread s s.start) }

def commit (s : LogState) : LogState :=
  if 0 < s.lh.length then
    writeHead { installTrans (writeHead (writeLog s)) with lh := [] }
  else s

def recoverFromLog (s : LogState) : LogState :=
  writeHead { installTrans (readHead s) with lh := [] }

/-- The disk after a sequence of block writes. -/
def replay (d : Disk) (ws : List (Nat × Block)) : Disk :=
  ws.foldl (fun d w => Function.update d w.1 w.2) d

/-- The blocks `homes` are logged and hold `new` in the cache; nothing is written yet. -/
def pinned (start : Nat) (disk : Disk) (homes : List Nat) (new : Nat → Block) : LogState :=
  { start, disk, lh := homes, written := []
    dirty := fun b => if b ∈ homes then some (new b) else none }

/-- After a reboot the cache holds no dirty buffer. -/
def rebooted (start : Nat) (disk : Disk) : LogState :=
  { start, disk, dirty := fun _ => none, lh := [], written := [] }

/-- The disk left by a crash after `k` of the block writes of `commit`. -/
def commitCut (start : Nat) (disk : Disk) (homes : List Nat) (new : Nat → Block) (k : Nat) : Disk :=
  replay disk ((commit (pinned start disk homes new)).written.take k)

/-- The disk left by a crash after `k` of the block writes of a recovery. -/
def recoverCut (start : Nat) (disk : Disk) (k : Nat) : Disk :=
  replay disk ((recoverFromLog (rebooted start disk)).written.take k)

def recovered (start : Nat) (disk : Disk) : Disk := (recoverFromLog (rebooted start disk)).disk

def OutsideLog (start size b : Nat) : Prop := b < start ∨ start + size ≤ b

instance (start size b : Nat) : Decidable (OutsideLog start size b) :=
  inferInstanceAs (Decidable (_ ∨ _))

@[simp]
theorem replay_nil (d : Disk) : replay d [] = d := rfl

@[simp]
theorem replay_cons (d : Disk) (w : Nat × Block) (ws : List (Nat × Block)) :
    replay d (w :: ws) = replay (Function.update d w.1 w.2) ws := rfl

theorem replay_append (d : Disk) (ws vs : List (Nat × Block)) :
    replay d (ws ++ vs) = replay (replay d ws) vs := by
  simp [replay]

/-- From `s` to `s'` exactly `n` blocks are written and `P` holds of the disk at each cut. -/
def Stretch (P : Disk → Prop) (n : Nat) (s s' : LogState) : Prop :=
  ∃ ws, ws.length = n ∧ s'.written = s.written ++ ws ∧ s'.disk = replay s.disk ws ∧
    ∀ k, P (replay s.disk (ws.take k))

variable {P : Disk → Prop}

theorem Stretch.refl {s : LogState} (h : P s.disk) : Stretch P 0 s s :=
  ⟨[], rfl, by simp, rfl, by simpa using h⟩

variable {data : Block}

theorem Stretch.bwrite {s : LogState} {b : Nat} (h : P s.disk)
    (h' : P (Function.update s.disk b data)) :
    Stretch P 1 s (bwrite s b data) := by
  refine ⟨[(b, data)], rfl, rfl, rfl, ?_⟩
  intro k
  cases k with
  | zero => simpa using h
  | succ k => simpa using h'

theorem Stretch.trans {m n : Nat} {s t u : LogState} (h : Stretch P m s t)
    (h' : Stretch P n t u) : Stretch P (m + n) s u := by
  obtain ⟨ws, hlen, hws, hdisk, hP⟩ := h
  obtain ⟨vs, hlen', hvs, hdisk', hP'⟩ := h'
  refine ⟨ws ++ vs, by simp [hlen, hlen'], by simp [hvs, hws], ?_, ?_⟩
  · rw [hdisk', hdisk, replay_append]
  · intro k
    rw [List.take_append]
    by_cases hk : k ≤ ws.length
    · simpa [Nat.sub_eq_zero_of_le hk] using hP k
    · rw [List.take_of_length_le (by omega), replay_append, ← hdisk]
      exact hP' _

theorem Stretch.mono {P Q : Disk → Prop} {n : Nat} {s s' : LogState} (h : Stretch P n s s')
    (hPQ : ∀ d, P d → Q d) : Stretch Q n s s' := by
  obtain ⟨ws, hlen, hws, hdisk, hP⟩ := h
  exact ⟨ws, hlen, hws, hdisk, fun k => hPQ _ (hP k)⟩

/-- The header is empty and the blocks outside the log are those of `old`. -/
structure Idle (start size : Nat) (old d : Disk) : Prop where
  header : (d start).word 0 = 0
  same : ∀ b, OutsideLog start size b → d b = old b

/-- The header names `homes`, the log holds their new contents, and no other block outside the
log has changed. -/
structure Committed (start size : Nat) (homes : List Nat) (new : Nat → Block) (old d : Disk) :
    Prop where
  header : headerBlocks (d start) = homes
  logged : ∀ i (h : i < homes.length), d (start + i + 1) = new homes[i]
  same : ∀ b, b ∉ homes → OutsideLog start size b → d b = old b

/-- The disk with the new contents at their home blocks. -/
def installed (homes : List Nat) (new : Nat → Block) (old : Disk) : Disk :=
  fun b => if b ∈ homes then new b else old b

theorem word_putBlocks_of_le (bs : List Nat) (hb : Block) (i k : Nat) (hk : k ≤ i) :
    (putBlocks hb i bs).word k = hb.word k := by
  induction bs generalizing hb i with
  | nil => rfl
  | cons b bs ih =>
    rw [putBlocks, ih _ _ (by omega), Bytes.word_putWord_ne _ _ _ _ (by omega)]

theorem word_putBlocks (bs : List Nat) (hb : Block) (i k : Nat) (hk : k < bs.length)
    (hfit : i + bs.length < NINDIRECT) (hword : ∀ b ∈ bs, b < 2 ^ 32) :
    (putBlocks hb i bs).word (i + k + 1) = bs[k] := by
  induction bs generalizing hb i k with
  | nil => simp at hk
  | cons b bs ih =>
    have hfit' : i + (bs.length + 1) < 128 := hfit
    cases k with
    | zero =>
      have hroom : 4 * (i + 1) + 4 ≤ BSIZE := show _ ≤ 512 by omega
      rw [putBlocks, word_putBlocks_of_le _ _ _ _ (by omega),
        Bytes.word_putWord_same _ _ _ hroom]
      exact Nat.mod_eq_of_lt (hword b (by simp))
    | succ k =>
      have hfit'' : i + 1 + bs.length < NINDIRECT := show _ < 128 by omega
      have hrest := ih (hb.putWord (i + 1) b) (i + 1) k (by simpa using hk) hfit''
        (fun c hc => hword c (by simp [hc]))
      rw [putBlocks, show i + (k + 1) + 1 = i + 1 + k + 1 by omega, hrest]
      rfl

theorem headerCount_of_word {hb : Block} {n : Nat} (h : hb.word 0 = n) (hn : n ≤ LOGSIZE) :
    headerCount hb = n := by
  have hn' : n ≤ 30 := hn
  rw [headerCount, h, if_pos (by omega)]

theorem headerBlocks_putBlocks (hb : Block) (homes : List Nat) (hlen : homes.length ≤ LOGSIZE)
    (hword : ∀ b ∈ homes, b < 2 ^ 32) :
    headerBlocks (putBlocks (hb.putWord 0 homes.length) 0 homes) = homes := by
  have hlen' : homes.length ≤ 30 := hlen
  have hcount : headerCount (putBlocks (hb.putWord 0 homes.length) 0 homes) = homes.length := by
    apply headerCount_of_word _ hlen
    rw [word_putBlocks_of_le _ _ _ _ le_rfl, Bytes.word_putWord_same _ _ _ (by decide)]
    exact Nat.mod_eq_of_lt (by omega)
  apply List.ext_getElem
  · simp [headerBlocks, hcount]
  · intro k hk hk'
    have hfit : 0 + homes.length < NINDIRECT := show _ < 128 by omega
    have hw := word_putBlocks homes (hb.putWord 0 homes.length) 0 k hk' hfit hword
    rw [Nat.zero_add] at hw
    simpa [headerBlocks] using hw

theorem headerBlocks_of_empty {hb : Block} (h : hb.word 0 = 0) : headerBlocks hb = [] := by
  simp [headerBlocks, headerCount_of_word h (by decide)]

@[simp]
theorem bwrite_start (s : LogState) (b : Nat) (data : Block) : (bwrite s b data).start = s.start :=
  rfl

@[simp]
theorem bwrite_lh (s : LogState) (b : Nat) (data : Block) : (bwrite s b data).lh = s.lh := rfl

@[simp]
theorem bwrite_disk (s : LogState) (b : Nat) (data : Block) :
    (bwrite s b data).disk = Function.update s.disk b data := rfl

theorem bread_bwrite_ne (s : LogState) (b c : Nat) (data : Block) (h : c ≠ b) :
    bread (bwrite s b data) c = bread s c := by
  simp [bread, bwrite, h]

theorem writeLogFrom_fields (bs : List Nat) (s : LogState) (tail : Nat) :
    (writeLogFrom s tail bs).start = s.start ∧ (writeLogFrom s tail bs).lh = s.lh := by
  induction bs generalizing s tail with
  | nil => exact ⟨rfl, rfl⟩
  | cons b bs ih => exact ih _ _

theorem installFrom_fields (bs : List Nat) (s : LogState) (tail : Nat) :
    (installFrom s tail bs).start = s.start ∧ (installFrom s tail bs).lh = s.lh := by
  induction bs generalizing s tail with
  | nil => exact ⟨rfl, rfl⟩
  | cons b bs ih => exact ih _ _

variable {start size : Nat} {old d : Disk}

theorem Idle.update_log (h : Idle start size old d) {b : Nat} (hlo : start < b)
    (hhi : b < start + size) :
    Idle start size old (Function.update d b data) := by
  refine ⟨?_, ?_⟩
  · rw [update_of_ne (by omega)]
    exact h.header
  · intro c hc
    rw [update_of_ne (by unfold OutsideLog at hc; omega)]
    exact h.same c hc

/-- Copying blocks into the log leaves the disk idle at every cut. -/
theorem writeLogFrom_stretch (size : Nat) (old : Disk) (bs : List Nat) (s : LogState) (tail : Nat)
    (hroom : tail + bs.length < size) (h : Idle s.start size old s.disk) :
    Stretch (Idle s.start size old) bs.length s (writeLogFrom s tail bs) := by
  induction bs generalizing s tail with
  | nil => exact Stretch.refl h
  | cons b bs ih =>
    simp only [List.length_cons] at hroom
    have hstep : Idle s.start size old
        (Function.update s.disk (s.start + tail + 1) (bread s b)) :=
      h.update_log (by omega) (by omega)
    have hrest := ih (bwrite s (s.start + tail + 1) (bread s b)) (tail + 1) (by omega) hstep
    rw [List.length_cons, Nat.add_comm]
    exact (Stretch.bwrite h hstep).trans hrest

theorem writeLogFrom_other (bs : List Nat) (s : LogState) (tail c : Nat) (hc : c ≤ s.start + tail) :
    (writeLogFrom s tail bs).disk c = s.disk c ∧ (writeLogFrom s tail bs).dirty c = s.dirty c := by
  induction bs generalizing s tail with
  | nil => exact ⟨rfl, rfl⟩
  | cons b bs ih =>
    have hne : c ≠ s.start + tail + 1 := by omega
    have hrest := ih (bwrite s (s.start + tail + 1) (bread s b)) (tail + 1)
      (by simp only [bwrite_start]; omega)
    simpa [writeLogFrom, bwrite, hne] using hrest

theorem writeLogFrom_logged (size : Nat) (bs : List Nat) (s : LogState) (tail i : Nat)
    (hi : i < bs.length) (hroom : tail + bs.length < size)
    (hout : ∀ b ∈ bs, OutsideLog s.start size b) :
    (writeLogFrom s tail bs).disk (s.start + tail + i + 1) = bread s bs[i] ∧
      (writeLogFrom s tail bs).dirty (s.start + tail + i + 1) = none := by
  induction bs generalizing s tail i with
  | nil => simp at hi
  | cons b bs ih =>
    simp only [List.length_cons] at hroom hi
    let t := bwrite s (s.start + tail + 1) (bread s b)
    cases i with
    | zero =>
      have hkeep := writeLogFrom_other bs t (tail + 1) (s.start + tail + 1)
        (by simp only [t, bwrite_start]; omega)
      simpa [writeLogFrom, t, bwrite] using hkeep
    | succ i =>
      have hne : bs[i] ≠ s.start + tail + 1 := by
        have := hout bs[i] (by simp)
        unfold OutsideLog at this
        omega
      have hrest := ih t (tail + 1) i (by omega) (by omega)
        (fun c hc => hout c (by simp [hc]))
      rw [bread_bwrite_ne _ _ _ _ hne] at hrest
      rw [show s.start + tail + (i + 1) + 1 = t.start + (tail + 1) + i + 1 by
        simp only [t, bwrite_start]; omega]
      exact hrest

theorem Committed.update_home {homes : List Nat} {new : Nat → Block}
    (h : Committed start size homes new old d) (hlen : homes.length < size)
    (hout : ∀ b ∈ homes, OutsideLog start size b) {b : Nat} (hb : b ∈ homes) :
    Committed start size homes new old (Function.update d b data) := by
  have hb' := hout b hb
  unfold OutsideLog at hb'
  refine ⟨?_, ?_, ?_⟩
  · rw [update_of_ne (by omega)]
    exact h.header
  · intro i hi
    rw [update_of_ne (by omega)]
    exact h.logged i hi
  · intro c hc hcout
    have hcb : c ≠ b := fun he => hc (he ▸ hb)
    rw [update_of_ne hcb]
    exact h.same c hc hcout

/-- Installing a suffix of the logged blocks keeps the log complete at every cut, and leaves
each of them with its new contents. -/
theorem installFrom_stretch (size : Nat) (homes : List Nat) (new : Nat → Block) (old : Disk)
    (bs : List Nat) (s : LogState) (tail : Nat) (hdrop : homes.drop tail = bs)
    (hlen : homes.length < size) (hout : ∀ b ∈ homes, OutsideLog s.start size b)
    (hclean : ∀ i, i < homes.length → s.dirty (s.start + i + 1) = none)
    (h : Committed s.start size homes new old s.disk)
    (hdone : ∀ b ∈ homes.take tail, s.disk b = new b) :
    Stretch (Committed s.start size homes new old) bs.length s (installFrom s tail bs) ∧
      ∀ b ∈ homes, (installFrom s tail bs).disk b = new b := by
  induction bs generalizing s tail with
  | nil =>
    refine ⟨Stretch.refl h, ?_⟩
    intro b hb
    apply hdone b
    rwa [List.take_of_length_le (List.drop_eq_nil_iff.mp hdrop)]
  | cons b bs ih =>
    have htail : tail < homes.length := by
      by_contra hge
      rw [List.drop_eq_nil_of_le (by omega)] at hdrop
      simp at hdrop
    have hcons := List.drop_eq_getElem_cons htail
    rw [hdrop] at hcons
    obtain ⟨hb, hbs⟩ := List.cons.inj hcons
    have hmem : b ∈ homes := by rw [hb]; exact List.getElem_mem _
    have hread : bread s (s.start + tail + 1) = new b := by
      simp [bread, hclean tail htail, h.logged tail htail, hb]
    let t := bwrite s b (new b)
    have hstep : Committed s.start size homes new old (Function.update s.disk b (new b)) :=
      h.update_home hlen hout hmem
    have hdone' : ∀ c ∈ homes.take (tail + 1), t.disk c = new c := by
      intro c hc
      rw [List.take_succ_eq_append_getElem htail, List.mem_append, List.mem_singleton, ← hb] at hc
      by_cases hcb : c = b
      · subst c; simp [t]
      · simp only [t, bwrite_disk, update_of_ne hcb]
        exact hdone c (hc.resolve_right hcb)
    have hclean' : ∀ i, i < homes.length → t.dirty (t.start + i + 1) = none := by
      intro i hi
      have hne : s.start + i + 1 ≠ b := by
        have := hout b hmem
        unfold OutsideLog at this
        omega
      simpa [t, bwrite, hne] using hclean i hi
    obtain ⟨hrest, hnew⟩ := ih t (tail + 1) hbs.symm hout hclean' hstep hdone'
    rw [installFrom, hread, List.length_cons, Nat.add_comm]
    exact ⟨(Stretch.bwrite h hstep).trans hrest, hnew⟩

theorem Committed.erase {homes : List Nat} {new : Nat → Block}
    (h : Committed start size homes new old d) (hsize : 0 < size) (hnew : ∀ b ∈ homes, d b = new b)
    (hb : Block) (hzero : hb.word 0 = 0) :
    Idle start size (installed homes new old) (Function.update d start hb) := by
  refine ⟨by simpa using hzero, ?_⟩
  intro b hb
  rw [update_of_ne (by unfold OutsideLog at hb; omega)]
  by_cases hmem : b ∈ homes
  · simpa [installed, hmem] using hnew b hmem
  · simpa [installed, hmem] using h.same b hmem hb

theorem Idle.update_head (h : Idle start size old d) (hsize : 0 < size) {hb : Block}
    (hzero : hb.word 0 = 0) :
    Idle start size old (Function.update d start hb) := by
  refine ⟨by simpa using hzero, ?_⟩
  intro b hb
  rw [update_of_ne (by unfold OutsideLog at hb; omega)]
  exact h.same b hb

theorem word_clearedHead (hb : Block) : (putBlocks (hb.putWord 0 0) 0 []).word 0 = 0 := by
  rw [putBlocks, Bytes.word_putWord_same _ _ _ (by decide)]
  rfl

theorem Stretch.cut {P Q : Disk → Prop} {m n b : Nat} {s t u : LogState} (h : Stretch P m s t)
    (h' : Stretch Q n (Xv6.bwrite t b data) u) (hs : s.written = []) (k : Nat) :
    (k ≤ m ∧ P (replay s.disk (u.written.take k))) ∨
      (m < k ∧ Q (replay s.disk (u.written.take k))) := by
  obtain ⟨ws, hlen, hws, hdisk, hP⟩ := h
  obtain ⟨vs, -, hvs, -, hQ⟩ := h'
  have hall : u.written = ws ++ (b, data) :: vs := by
    simp [hvs, Xv6.bwrite, hws, hs]
  rw [hall, List.take_append]
  by_cases hk : k ≤ m
  · left
    refine ⟨hk, ?_⟩
    rw [Nat.sub_eq_zero_of_le (by omega), List.take_zero, List.append_nil]
    exact hP k
  · right
    refine ⟨by omega, ?_⟩
    obtain ⟨j, hj⟩ : ∃ j, k - ws.length = j + 1 := ⟨k - ws.length - 1, by omega⟩
    rw [List.take_of_length_le (by omega), hj, List.take_succ_cons, replay_append, ← hdisk,
      replay_cons]
    exact hQ j

theorem Stretch.last {n : Nat} {s t : LogState} (h : Stretch P n s t) :
    P t.disk := by
  obtain ⟨ws, hlen, -, hdisk, hP⟩ := h
  have hall := hP n
  rwa [List.take_of_length_le (by omega), ← hdisk] at hall

section Phases

variable {start size : Nat} {old d : Disk} {homes : List Nat} {new : Nat → Block}

theorem recover_idle (hsize : 0 < size) (h : Idle start size old d) :
    (∀ k, Idle start size old (recoverCut start d k)) ∧
      Idle start size old (recovered start d) := by
  have hempty : (readHead (rebooted start d)).lh = [] := by
    show headerBlocks (bread (rebooted start d) start) = []
    apply headerBlocks_of_empty
    exact h.header
  have hrun : recoverFromLog (rebooted start d) = writeHead (rebooted start d) := by
    simp only [recoverFromLog, installTrans, hempty, installFrom]
    rfl
  have hdone : Idle start size old (writeHead (rebooted start d)).disk :=
    h.update_head hsize (word_clearedHead _)
  refine ⟨?_, by rw [recovered, hrun]; exact hdone⟩
  intro k
  obtain ⟨ws, -, hws, -, hP⟩ : Stretch (Idle start size old) 1 (rebooted start d)
      (writeHead (rebooted start d)) := Stretch.bwrite h hdone
  rw [recoverCut, hrun, hws]
  exact hP k

/-- Installing a complete log and erasing its header: complete until the last write, which
leaves the new contents in place. -/
theorem install_erase {s : LogState} (hlen : homes.length < size)
    (hout : ∀ b ∈ homes, OutsideLog start size b) (hlh : s.lh = homes) (hstart : s.start = start)
    (hclean : ∀ i, i < homes.length → s.dirty (start + i + 1) = none)
    (h : Committed start size homes new old s.disk) :
    Stretch (fun d => Committed start size homes new old d ∨
        Idle start size (installed homes new old) d) (homes.length + 1) s
        (writeHead { installTrans s with lh := [] }) ∧
      Idle start size (installed homes new old) (writeHead { installTrans s with lh := [] }).disk := by
  subst hlh hstart
  obtain ⟨hinstall, hnew⟩ := installFrom_stretch size s.lh new old s.lh s 0 List.drop_zero
    hlen hout hclean h (by simp)
  let t : LogState := { installTrans s with lh := [] }
  have ht : t.start = s.start := (installFrom_fields s.lh s 0).1
  have hfull : Committed s.start size s.lh new old t.disk := hinstall.last
  have hdone : Idle s.start size (installed s.lh new old) (writeHead t).disk := by
    have herase := hfull.erase (by omega) hnew _ (word_clearedHead (bread t t.start))
    change Idle s.start size _ (Function.update t.disk t.start _)
    rw [ht] at herase ⊢
    exact herase
  have hst : Stretch (fun d => Committed s.start size s.lh new old d ∨
      Idle s.start size (installed s.lh new old) d) s.lh.length s t :=
    Stretch.mono hinstall fun _ hd => .inl hd
  exact ⟨hst.trans (Stretch.bwrite (.inl hfull) (.inr hdone)), hdone⟩

theorem recover_committed (hlen : homes.length < size) (hout : ∀ b ∈ homes, OutsideLog start size b)
    (h : Committed start size homes new old d) :
    (∀ k, Committed start size homes new old (recoverCut start d k) ∨
      Idle start size (installed homes new old) (recoverCut start d k)) ∧
      Idle start size (installed homes new old) (recovered start d) := by
  have hrun := install_erase (s := readHead (rebooted start d)) hlen hout h.header rfl
    (fun _ _ => rfl) h
  refine ⟨?_, hrun.2⟩
  intro k
  obtain ⟨ws, -, hws, -, hP⟩ := hrun.1
  rw [recoverCut, recoverFromLog, hws]
  exact hP k

/-- Writing the header is the point at which the transaction commits. -/
theorem Idle.commit_point {t : LogState} (h : Idle t.start size old t.disk)
    (hlen : t.lh.length < size) (hfit : t.lh.length ≤ LOGSIZE) (hword : ∀ b ∈ t.lh, b < 2 ^ 32)
    (hlogged : ∀ i (hi : i < t.lh.length), t.disk (t.start + i + 1) = new t.lh[i]) :
    Committed t.start size t.lh new old (writeHead t).disk := by
  refine ⟨?_, ?_, ?_⟩
  · simpa [writeHead] using headerBlocks_putBlocks (bread t t.start) t.lh hfit hword
  · intro i hi
    rw [writeHead, bwrite_disk, update_of_ne (by omega)]
    exact hlogged i hi
  · intro b _ hb
    rw [writeHead, bwrite_disk, update_of_ne (by unfold OutsideLog at hb; omega)]
    exact h.same b hb

/-- The disk at every cut of a commit: old before the header is written, recoverable after. -/
theorem commit_cut (hlen : homes.length < size) (hfit : homes.length ≤ LOGSIZE)
    (hword : ∀ b ∈ homes, b < 2 ^ 32) (hout : ∀ b ∈ homes, OutsideLog start size b)
    (hidle : (old start).word 0 = 0) (k : Nat) :
    (k ≤ homes.length ∧ Idle start size old (commitCut start old homes new k)) ∨
      (homes.length < k ∧ (Committed start size homes new old (commitCut start old homes new k) ∨
        Idle start size (installed homes new old) (commitCut start old homes new k))) := by
  let s := pinned start old homes new
  have h : Idle start size old s.disk := ⟨hidle, fun _ _ => rfl⟩
  by_cases hne : homes = []
  · -- An empty transaction writes nothing.
    subst hne
    have hcut : commitCut start old [] new k = old := by simp [commitCut, commit, pinned]
    have hsame : installed [] new old = old := by funext b; simp [installed]
    rw [hcut, hsame]
    by_cases hk : k = 0
    · exact .inl ⟨by simp [hk], h⟩
    · exact .inr ⟨by simpa using Nat.pos_of_ne_zero hk, .inr h⟩
  let t := writeLog s
  obtain ⟨htstart, htlh⟩ : t.start = start ∧ t.lh = homes := writeLogFrom_fields homes s 0
  have hwrite : Stretch (Idle start size old) homes.length s t :=
    writeLogFrom_stretch size old homes s 0 (by omega) h
  have hlogged (i : Nat) (hi : i < homes.length) :
      t.disk (start + i + 1) = new homes[i] ∧ t.dirty (start + i + 1) = none := by
    have hlog := writeLogFrom_logged size homes s 0 i hi (by omega) hout
    have hcached : bread s homes[i] = new homes[i] := by simp [bread, s, pinned]
    rwa [hcached] at hlog
  let u := writeHead t
  have hcommit : Committed start size homes new old u.disk := by
    have hpoint : Committed t.start size t.lh new old u.disk :=
      Idle.commit_point (htstart ▸ hwrite.last)
        (by rwa [htlh]) (by rwa [htlh]) (by rwa [htlh])
        (fun i hi => by
          have hi' : i < homes.length := by rwa [htlh] at hi
          simp only [htstart, htlh]
          exact (hlogged i hi').1)
    rwa [htstart, htlh] at hpoint
  have hclean (i : Nat) (hi : i < homes.length) : u.dirty (start + i + 1) = none := by
    have hne : start + i + 1 ≠ t.start := by omega
    simpa [u, writeHead, bwrite, hne] using (hlogged i hi).2
  have huend : Stretch (fun d => Committed start size homes new old d ∨
      Idle start size (installed homes new old) d) (homes.length + 1) u
      (commit (pinned start old homes new)) := by
    have hulh : u.lh = homes := htlh
    have hustart : u.start = start := htstart
    have hpos : 0 < s.lh.length := List.length_pos_iff.mpr hne
    rw [commit, if_pos hpos]
    exact (install_erase hlen hout hulh hustart hclean hcommit).1
  exact hwrite.cut huend rfl k

theorem recoverCuts_idle (hsize : 0 < size) (h : Idle start size old d) (cuts : List Nat) :
    Idle start size old (cuts.foldl (recoverCut start) d) := by
  induction cuts generalizing d with
  | nil => exact h
  | cons k cuts ih => exact ih ((recover_idle hsize h).1 k)

theorem recoverCuts_committed (hlen : homes.length < size)
    (hout : ∀ b ∈ homes, OutsideLog start size b)
    (h : Committed start size homes new old d ∨ Idle start size (installed homes new old) d)
    (cuts : List Nat) :
    Idle start size (installed homes new old) (recovered start (cuts.foldl (recoverCut start) d)) := by
  induction cuts generalizing d with
  | nil =>
    rcases h with h | h
    · exact (recover_committed hlen hout h).2
    · exact (recover_idle (by omega) h).2
  | cons k cuts ih =>
    apply ih
    rcases h with h | h
    · exact (recover_committed hlen hout h).1 k
    · exact .inr ((recover_idle (by omega) h).1 k)

end Phases

/-- A crash cuts `commit` after `k` block writes, any number of recoveries are cut in turn, and
one completes: the logged blocks are then all old or all new, and all new once the header had
been written. -/
theorem commit_crash_atomic (start size : Nat) (disk : Disk) (homes : List Nat) (new : Nat → Block)
    (hhead : (disk start).word 0 = 0) (hfit : homes.length ≤ LOGSIZE) (hlen : homes.length < size)
    (hword : ∀ b ∈ homes, b < 2 ^ 32) (hout : ∀ b ∈ homes, OutsideLog start size b) (k : Nat)
    (cuts : List Nat) :
    let d := recovered start (cuts.foldl (recoverCut start) (commitCut start disk homes new k))
    ((∀ b ∈ homes, d b = disk b) ∨ (∀ b ∈ homes, d b = new b)) ∧
      (homes.length < k → ∀ b ∈ homes, d b = new b) ∧
      (∀ b, b ∉ homes → OutsideLog start size b → d b = disk b) ∧
      (d start).word 0 = 0 := by
  intro d
  have hcut : (k ≤ homes.length ∧ Idle start size disk (commitCut start disk homes new k)) ∨
      (homes.length < k ∧ (Committed start size homes new disk (commitCut start disk homes new k) ∨
        Idle start size (installed homes new disk) (commitCut start disk homes new k))) :=
    commit_cut hlen hfit hword hout hhead k
  rcases hcut with ⟨hk, hidle⟩ | ⟨hk, hdone⟩
  · have hd : Idle start size disk d :=
      (recover_idle (by omega) (recoverCuts_idle (by omega) hidle cuts)).2
    refine ⟨.inl fun b hb => hd.same b (hout b hb), by omega, fun b _ hb => hd.same b hb, hd.header⟩
  · have hd : Idle start size (installed homes new disk) d :=
      recoverCuts_committed hlen hout hdone cuts
    have hnew : ∀ b ∈ homes, d b = new b := by
      intro b hb
      simpa [installed, hb] using hd.same b (hout b hb)
    refine ⟨.inr hnew, fun _ => hnew, ?_, hd.header⟩
    intro b hb hbo
    simpa [installed, hb] using hd.same b hbo

/-- A two-block transaction on a zeroed disk, cut in the middle of installing it and again in
the middle of the first recovery. -/
theorem commit_crash_atomic_twoBlocks : [40, 50].map (recovered 2 ([1].foldl (recoverCut 2)
        (commitCut 2 (fun _ => Bytes.zero) [40, 50] (fun b => Bytes.zero.putWord 0 b) 4))) =
      [Bytes.zero.putWord 0 40, Bytes.zero.putWord 0 50] := by
  have hnew := (commit_crash_atomic 2 30 (fun _ => Bytes.zero) [40, 50]
    (fun b => Bytes.zero.putWord 0 b)
    (by simp) (by decide) (by decide) (by decide) (by decide) 4 [1]).2.1 (by decide)
  rw [List.map_cons, List.map_cons, List.map_nil, hnew 40 (by decide), hnew 50 (by decide)]

end Xv6
