import Xv6.Disk.Contents
import Xv6.Lib.Splice

/-!
# `filewrite`

A write to an open file is made in chunks, each in a transaction of its own.
-/

namespace Xv6

open Run (wp_bind wp_get wp_modify wp_pure)

/-- `f->type` -/
inductive FdType where
  | none
  | pipe
  | inode
  deriving DecidableEq

/-- The disk and the fields of a `struct file` -/
structure Opened where
  disk : Store
  type : FdType
  writable : Bool
  ip : Nat
  off : Nat
  /-- What `pipewrite` returns for `f->pipe` -/
  pipewrite : List UInt8 → Int

inductive FilewritePanic where
  | disk (e : StorePanic)
  | shortFilewrite
  | filewrite
  deriving DecidableEq

namespace Opened

open Store

abbrev FilewriteM (α : Type) := Run FilewritePanic Opened α

def onDisk {α : Type} (m : DiskM α) : FilewriteM α := fun f =>
  match m f.disk with
  | .ok (x, disk) => .ok (x, { f with disk })
  | .error e => .error (.disk e)

/-- `max` of `filewrite` -/
def maxChunk : Nat := (MAXOPBLOCKS - 1 - 1 - 2) / 2 * 512

/-- The bytes from `addr + i` on -/
def bytesAt (addr : Nat → UInt8) (i n : Nat) : List UInt8 := (List.range n).map fun k => addr (i + k)

/-- From `begin_op` to `iunlock`, for one chunk -/
def chunkOp (l : List UInt8) : FilewriteM Int := do
  let f ← get
  onDisk (Op.prog .beginOp)
  onDisk (Store.ilock f.ip)
  let f ← get
  let r ← onDisk (writei f.ip f.off l)
  modify fun f => if r > 0 then { f with off := (f.off + r.toNat) % 2 ^ 32 } else f
  pure r

def writeChunk (l : List UInt8) : FilewriteM Int := do
  let r ← chunkOp l
  onDisk (Op.prog .endOp)
  pure r

/-- The loop of `filewrite`, with the value of `i` at its end -/
def filewriteLoop (addr : Nat → UInt8) (n : Int) : Nat → Nat → FilewriteM Nat
  | 0, i => pure i
  | fuel + 1, i =>
    if i < n then do
      let n1 := min (n.toNat - i) maxChunk
      let r ← writeChunk (bytesAt addr i n1)
      if r < 0 then pure i
      else if r ≠ n1 then throw .shortFilewrite
      else filewriteLoop addr n fuel (i + n1)
    else pure i

def filewrite (addr : Nat → UInt8) (n : Int) : FilewriteM Int := do
  let f ← get
  if f.writable = false then pure (-1)
  else match f.type with
    | .pipe => pure (f.pipewrite (bytesAt addr 0 n.toNat))
    | .inode => do
      let i ← filewriteLoop addr n n.toNat 0
      pure (if i = n then n else -1)
    | .none => throw .filewrite

variable {f f' : Opened} {E : FilewritePanic → Prop}

theorem wp_onDisk {α : Type} {m : DiskM α} {Q : α → Opened → Prop}
    (h : Run.wp (fun e => E (.disk e)) m (fun x disk => Q x { f with disk }) f.disk) :
    Run.wp E (onDisk m) Q f := by
  rw [Run.wp] at h ⊢
  rw [onDisk]
  split at h
  · rename_i heq
    rw [heq]
    exact h
  · rename_i heq
    rw [heq]
    exact h

theorem onDisk_eq_ok {α : Type} {m : DiskM α} {x : α} :
    onDisk m f = .ok (x, f') ↔ ∃ disk, m f.disk = .ok (x, disk) ∧ f' = { f with disk } := by
  rw [onDisk]
  split
  · rename_i y disk hm
    constructor
    · intro h
      cases h
      exact ⟨disk, hm, rfl⟩
    · rintro ⟨disk', hm', rfl⟩
      rw [hm'] at hm
      cases hm
      rfl
  · rename_i e hm
    constructor
    · nofun
    · rintro ⟨disk, hm', -⟩
      rw [hm'] at hm
      cases hm

/-- The file is a regular one, to which `f->ip` is a reference. -/
structure Regular (f : Opened) : Prop where
  sound : f.disk.Sound
  ref : 0 < (f.disk.inode f.ip).ref
  allocated : f.disk.allocated f.ip
  type : (f.disk.cur f.ip).type = T_FILE

theorem Regular.relog (h : f.Regular) (outstanding : Nat) (lh : List Nat) :
    Regular { f with disk := { f.disk with outstanding, lh } } where
  sound := h.sound.of_cur rfl rfl (fun _ => rfl) fun hj => ⟨h.sound.valid hj, h.sound.through hj⟩
  ref := h.ref
  allocated := h.allocated
  type := h.type

def contents (f : Opened) : List UInt8 := f.disk.contents f.ip

/-- The offset is in the file, and `n` bytes from there on are not too many. -/
def Fits (f : Opened) (n : Nat) : Prop := f.off ≤ f.contents.length ∧ f.off + n ≤ MAXFILE * BSIZE

instance (f : Opened) (n : Nat) : Decidable (f.Fits n) := inferInstanceAs (Decidable (_ ∧ _))

/-- Unless `E` allows a panic, there are blocks for the largest file, and no other transaction. -/
structure Roomy (E : FilewritePanic → Prop) (f : Opened) : Prop where
  free : ¬E (.disk .outOfBlocks) →
    footprint MAXFILE ≤ f.disk.freeBlocks + footprint (blocksOf f.contents.length)
  log : ¬E (.disk .tooBig) → f.disk.outstanding = 0 ∧ f.disk.lh = [] ∧ MAXOPBLOCKS ≤ f.disk.logCap

/-- The bytes `l` have been written at the offset, which is behind them now. -/
structure Appends (E : FilewritePanic → Prop) (l : List UInt8) (f f' : Opened) : Prop where
  regular : f'.Regular
  roomy : f'.Roomy E
  ip : f'.ip = f.ip
  contents : f'.contents = splice f.contents f.off l
  off : f'.off = f.off + l.length

theorem Appends.refl (h : f.Regular) (hr : f.Roomy E) : Appends E [] f f :=
  ⟨h, hr, rfl, (splice_nil ..).symm, rfl⟩

theorem Appends.trans {f'' : Opened} {l l' : List UInt8} (h : Appends E l f f')
    (h' : Appends E l' f' f'') (hoff : f.off ≤ f.contents.length) : Appends E (l ++ l') f f'' where
  regular := h'.regular
  roomy := h'.roomy
  ip := h'.ip.trans h.ip
  contents := by rw [h'.contents, h.contents, h.off, splice_splice hoff]
  off := by rw [h'.off, h.off, List.length_append, Nat.add_assoc]

theorem wp_ilock_allocated {E : StorePanic → Prop} {s : Store} {i : Nat} (h : s.Sound)
    (halloc : s.allocated i) (href : 0 < (s.inode i).ref) {Q : Unit → Store → Prop}
    (hQ : ∀ t : Store, t.Sound → t.held i → (∀ j, t.cur j = s.cur j) → t = { s with inode := t.inode } →
      Q () t) : Run.wp E (Store.ilock i) Q s := by
  rw [Store.ilock, wp_bind, wp_get]
  dsimp only
  rw [if_neg (by omega)]
  split
  · rename_i hvalid
    exact (wp_pure ..).mpr (hQ s h ⟨href, hvalid⟩ (fun _ => rfl) rfl)
  · rename_i hvalid
    have hfalse : (s.inode i).valid = false := by simpa using hvalid
    have hcur : s.cur i = s.diskDinode i := by rw [cur, hfalse, if_neg (by decide)]
    have htype : (s.diskDinode i).type ≠ 0 := hcur ▸ halloc.2
    rw [wp_bind]
    refine wp_bread ?_
    rw [wp_bind, Run.wp_set]
    split
    · exact absurd ‹_› htype
    rw [wp_pure]
    refine hQ _ (h.load halloc.1 hfalse htype) ⟨?_, ?_⟩ (fun j => ?_) rfl
    · rw [inode_setIncore_self]
      exact href
    · rw [inode_setIncore_self]
    · by_cases hj : j = i
      · subst hj
        rw [hcur, cur_of_valid (by rw [inode_setIncore_self]), inode_setIncore_self]
        rfl
      · exact cur_setIncore_ne hj

theorem chunk_cost_le {off n size : Nat} (hn : n ≤ maxChunk) (hoff : off ≤ size) :
    span off n + (blocksOf (off + n) - blocksOf size) + 3 ≤ MAXOPBLOCKS := by
  simp only [maxChunk, MAXOPBLOCKS] at hn ⊢
  simp only [span, blocksOf, BSIZE]
  split <;> omega

/-- The disk in a new transaction, with the inode locked -/
structure Locked (f : Opened) (t : Store) : Prop where
  sound : t.Sound
  held : t.held f.ip
  cur : ∀ j, t.cur j = f.disk.cur j
  same : t = { f.disk with outstanding := f.disk.outstanding + 1, inode := t.inode }

namespace Locked

variable {t : Store}

theorem block (h : Locked f t) : t.block = f.disk.block := by rw [h.same]

theorem contents (h : Locked f t) (j : Nat) : t.contents j = f.disk.contents j := by
  rw [Store.contents, Store.contents, h.cur, h.block]

theorem inode (h : Locked f t) : (t.inode f.ip).d = f.disk.cur f.ip := by
  rw [← cur_of_valid h.held.2, h.cur]

end Locked

variable {l : List UInt8}

theorem wp_chunkOp (h : f.Regular) (hlen : l.length ≤ maxChunk) {Q : Int → Opened → Prop}
    (ha : ∀ t, Locked f t → f.Fits l.length → t.Affords (fun e => E (.disk e))
      (footprint (max (blocksOf f.contents.length) (blocksOf (f.off + l.length))) -
        footprint (blocksOf f.contents.length)) MAXOPBLOCKS)
    (hfail : ¬f.Fits l.length → ∀ t, Locked f t → Q (-1) { f with disk := t })
    (hok : f.Fits l.length → ∀ t, Locked f t → ∀ disk, Store.Wrote f.ip f.off l t disk →
      Q l.length { f with disk, off := f.off + l.length }) :
    Run.wp E (chunkOp l) Q f := by
  have hsound : Store.Sound { f.disk with outstanding := f.disk.outstanding + 1 } :=
    (h.relog _ f.disk.lh).sound
  rw [chunkOp, wp_bind, wp_get, wp_bind]
  refine wp_onDisk ?_
  rw [Op.prog, wp_modify, wp_bind]
  refine wp_onDisk (wp_ilock_allocated hsound h.allocated h.ref fun t hs hheld hcur hsame => ?_)
  have ht : Locked f t := ⟨hs, hheld, hcur, hsame⟩
  have hsize : (t.inode f.ip).d.size = f.contents.length := by
    rw [ht.inode]
    exact (length_contents ..).symm
  have hdev : (t.inode f.ip).d.type ≠ T_DEV := by
    rw [ht.inode, h.type]
    decide
  have hmax : MAXFILE * BSIZE < 2 ^ 31 := by decide
  have hfits : t.InRange f.ip f.off l.length ↔ f.Fits l.length := by
    simp only [InRange, Fits, hdev, hsize, ne_eq, not_false_eq_true, true_and]
    omega
  rw [wp_bind, wp_get, wp_bind]
  refine wp_onDisk (wp_writei_file ht.sound ht.held.2 (fun hin => ?_) (fun he => absurd he hdev)
    (fun _ hout => ?_) fun hin disk hw => ?_)
  · have hin := hfits.mp hin
    rw [hsize]
    exact (ha t ht hin).mono (Nat.le_refl _) (chunk_cost_le hlen hin.1)
  · rw [wp_bind, wp_modify, if_neg (by decide), wp_pure]
    exact hfail (fun hin => hout (hfits.mpr hin)) t ht
  · have hin := hfits.mp hin
    have hoff : (f.off + l.length) % 2 ^ 32 = f.off + l.length := by
      have hle := hin.2
      exact Nat.mod_eq_of_lt (by omega)
    have hres := hok hin t ht disk hw
    rw [wp_bind, wp_modify, wp_pure]
    split
    · rw [Int.toNat_natCast, hoff]
      exact hres
    · have hzero : l.length = 0 := by omega
      rw [hzero] at hres ⊢
      exact hres

theorem Roomy.appends (hr : f.Roomy E) {s : Store} (hs : s.Sound) (href : 0 < (s.inode f.ip).ref)
    (halloc : s.allocated f.ip) (htype : (s.cur f.ip).type = T_FILE)
    (hcontents : s.contents f.ip = splice f.contents f.off l)
    (hfree : f.disk.freeBlocks + footprint (blocksOf f.contents.length) ≤
      s.freeBlocks + footprint (blocksOf (s.contents f.ip).length))
    (hout : s.outstanding = f.disk.outstanding + 1) (hlog : s.logsize = f.disk.logsize) :
    Appends E l f { f with
      disk := { s with
        outstanding := s.outstanding - 1, lh := if s.outstanding = 1 then [] else s.lh }
      off := f.off + l.length } where
  regular :=
    { sound := hs.of_cur rfl rfl (fun _ => rfl) fun hj => ⟨hs.valid hj, hs.through hj⟩
      ref := href
      allocated := halloc
      type := htype }
  roomy :=
    { free := fun hE => (hr.free hE).trans hfree
      log := by
        intro hE
        obtain ⟨hzero, -, hcap⟩ := hr.log hE
        have hone : s.outstanding = 1 := by omega
        refine ⟨by simp [hone], if_pos hone, ?_⟩
        rw [logCap] at hcap ⊢
        change _ ≤ min LOGSIZE (s.logsize - 1)
        rwa [hlog] }
  ip := rfl
  contents := hcontents
  off := rfl

theorem wp_writeChunk (h : f.Regular) (hr : f.Roomy E) (hlen : l.length ≤ maxChunk)
    {Q : Int → Opened → Prop} (hfail : ¬f.Fits l.length → ∀ f', Appends E [] f f' → Q (-1) f')
    (hok : f.Fits l.length → ∀ f', Appends E l f f' → Q l.length f') : Run.wp E (writeChunk l) Q f := by
  rw [writeChunk, wp_bind]
  refine wp_chunkOp h hlen (fun t ht hin => ?_) (fun hout t ht => ?_) fun hin t ht disk hw => ?_
  · have hc : blocksOf f.contents.length ≤ MAXFILE := by
      have hmapped := (h.sound.mapped h.allocated).1
      rwa [← length_contents] at hmapped
    have he : blocksOf (f.off + l.length) ≤ MAXFILE := by
      have hle := hin.2
      simp only [blocksOf, BSIZE] at hle ⊢
      omega
    have hmono := footprint_mono (max_le hc he)
    rw [ht.same]
    refine ⟨fun hE => ?_, fun hE => ?_, fun _ => Nat.succ_pos _⟩
    · have hfree : footprint MAXFILE ≤ f.disk.freeBlocks + footprint (blocksOf f.contents.length) :=
        hr.free hE
      change _ ≤ f.disk.freeBlocks
      omega
    · obtain ⟨-, hlh, hcap⟩ := hr.log hE
      change f.disk.lh.length + MAXOPBLOCKS ≤ f.disk.logCap
      rw [hlh]
      simpa using hcap
  · rw [wp_bind]
    refine wp_onDisk ?_
    rw [Op.prog, wp_modify, wp_pure]
    have hcontents := ht.contents f.ip
    refine hfail hout _ (hr.appends (l := []) ht.sound ht.held.1 (ht.sound.valid ht.held.2) ?_ ?_ ?_ ?_ ?_)
    · rw [ht.cur, h.type]
    · rw [hcontents, splice_nil]
      rfl
    · rw [hcontents, ht.same]
      exact Nat.le_refl _
    · rw [ht.same]
    · rw [ht.same]
  · rw [wp_bind]
    refine wp_onDisk ?_
    rw [Op.prog, wp_modify, wp_pure]
    have hsize : (t.inode f.ip).d.size = f.contents.length := by
      rw [ht.inode]
      exact (length_contents ..).symm
    have hvalid := hw.valid.trans ht.held.2
    have hcontents := hw.contents ht.held.2 (hsize ▸ hin.1)
    rw [ht.contents f.ip] at hcontents
    have hlength : blocksOf (disk.contents f.ip).length =
        max (blocksOf f.contents.length) (blocksOf (f.off + l.length)) := by
      rw [length_contents, cur_of_valid hvalid, hw.size, hsize]
      rcases Nat.le_total f.contents.length (f.off + l.length) with hle | hle
      · rw [max_eq_right hle, max_eq_right (blocksOf_mono hle)]
      · rw [max_eq_left hle, max_eq_left (blocksOf_mono hle)]
    refine hok hin _ (hr.appends hw.sound (hw.ref ▸ ht.held.1) (hw.sound.valid hvalid) ?_ hcontents ?_ ?_ ?_)
    · rw [cur_of_valid hvalid, hw.node.type, ht.inode, h.type]
    · have hspends := hw.spends.free
      have hmono := footprint_mono (le_max_left (blocksOf f.contents.length) (blocksOf (f.off + l.length)))
      rw [hsize] at hspends
      rw [hlength]
      have hsame : t.freeBlocks = f.disk.freeBlocks := by rw [ht.same]; rfl
      change _ ≤ disk.freeBlocks + _
      omega
    · rw [hw.spends.outstanding, ht.same]
    · rw [hw.spends.logsize, ht.same]

theorem bytesAt_add (addr : Nat → UInt8) (i m n : Nat) :
    bytesAt addr i (m + n) = bytesAt addr i m ++ bytesAt addr (i + m) n := by
  rw [bytesAt, List.range_add, List.map_append, List.map_map, bytesAt, bytesAt]
  congr 2
  funext k
  rw [Function.comp, Nat.add_assoc]

theorem length_bytesAt (addr : Nat → UInt8) (i n : Nat) : (bytesAt addr i n).length = n := by
  rw [bytesAt, List.length_map, List.length_range]

theorem wp_filewriteLoop (h : f.Regular) (hr : f.Roomy E) {addr : Nat → UInt8} {n : Int} {fuel i : Nat}
    (hi : i ≤ n.toNat) (hfuel : n.toNat ≤ i + fuel) :
    Run.wp E (filewriteLoop addr n fuel i) (fun i' f' => ∃ k, i' = i + k ∧ i' ≤ n.toNat ∧
      Appends E (bytesAt addr i k) f f' ∧ (0 < k → f.Fits (min (n.toNat - i) maxChunk)) ∧
      (i' < n.toNat → ¬f'.Fits (min (n.toNat - i') maxChunk))) f := by
  induction fuel generalizing f i with
  | zero =>
    rw [filewriteLoop, wp_pure]
    exact ⟨0, rfl, hi, .refl h hr, nofun, fun hlt => by omega⟩
  | succ fuel ih =>
    rw [filewriteLoop]
    split
    · rename_i hlt
      have hmax : 0 < maxChunk := by decide
      have hlen := length_bytesAt addr i (min (n.toNat - i) maxChunk)
      rw [wp_bind]
      refine wp_writeChunk h hr (by omega) (fun hout f' hf' => ?_) fun hin f' hf' => ?_
      · rw [if_pos (by decide), wp_pure]
        refine ⟨0, rfl, hi, hf', nofun, fun _ hfits => hout ?_⟩
        rw [hlen]
        rw [Fits, hf'.contents, hf'.off, splice_nil] at hfits
        exact hfits
      · rw [hlen, if_neg (by omega), if_neg (by simp)]
        refine Run.wp_mono (ih hf'.regular hf'.roomy (by omega) (by omega)) ?_
        rintro i' f'' ⟨k, rfl, hle, hf'', -, hstop⟩
        rw [hlen] at hin
        refine ⟨min (n.toNat - i) maxChunk + k, by omega, hle, ?_, fun _ => hin, hstop⟩
        rw [bytesAt_add]
        exact hf'.trans hf'' hin.1
    · rename_i hge
      rw [wp_pure]
      exact ⟨0, rfl, hi, .refl h hr, nofun, fun hlt => by omega⟩

theorem wp_filewrite (h : f.Regular) (hr : f.Roomy E) (hwritable : f.writable = true)
    (htype : f.type = .inode) (addr : Nat → UInt8) (n : Int) :
    Run.wp E (filewrite addr n) (fun r f' => ∃ k, k ≤ n.toNat ∧ r = (if k = n then n else -1) ∧
      Appends E (bytesAt addr 0 k) f f' ∧ (0 < k → f.Fits (min n.toNat maxChunk)) ∧
      (k < n.toNat → ¬f'.Fits (min (n.toNat - k) maxChunk))) f := by
  rw [filewrite, wp_bind, wp_get, if_neg (by rw [hwritable]; decide), htype]
  dsimp only
  rw [wp_bind]
  refine Run.wp_mono (wp_filewriteLoop h hr (Nat.zero_le _) (by omega)) ?_
  rintro i' f' ⟨k, rfl, hle, hf', hfirst, hstop⟩
  rw [wp_pure]
  rw [Nat.zero_add] at hle hstop ⊢
  exact ⟨k, hle, rfl, hf', hfirst, hstop⟩

theorem Regular.length_le (h : f.Regular) : f.contents.length ≤ MAXFILE * BSIZE := by
  have hmapped := (h.sound.mapped h.allocated).1
  rw [← length_contents] at hmapped
  change blocksOf f.contents.length ≤ MAXFILE at hmapped
  simp only [blocksOf, BSIZE] at hmapped ⊢
  omega

/-- The write does not go over the largest size in a later chunk than the first. -/
def AtOnce (f : Opened) (n : Int) : Prop :=
  n ≤ maxChunk ∨ f.off + n ≤ MAXFILE * BSIZE ∨ f.contents.length < f.off ∨ MAXFILE * BSIZE < f.off + maxChunk

theorem Appends.all_or_none {addr : Nat → UInt8} {n : Int} {k : Nat} (hf' : Appends E (bytesAt addr 0 k) f f')
    (hle : k ≤ n.toNat) (hfirst : 0 < k → f.Fits (min n.toNat maxChunk))
    (hstop : k < n.toNat → ¬f'.Fits (min (n.toNat - k) maxChunk)) : k = 0 ∨ k = n.toNat ↔ f.AtOnce n := by
  have hoff := hf'.off
  rw [length_bytesAt] at hoff
  have hmax : maxChunk = 1536 := rfl
  have hlength (hle : f.off ≤ f.contents.length) : f'.off ≤ f'.contents.length := by
    rw [hf'.contents, length_splice hle, hf'.off]
    exact le_max_right ..
  constructor
  · intro hall
    by_contra hlate
    obtain ⟨hn, hend, hin, hchunk⟩ : ¬n ≤ maxChunk ∧ ¬f.off + n ≤ MAXFILE * BSIZE ∧
        ¬f.contents.length < f.off ∧ ¬MAXFILE * BSIZE < f.off + maxChunk := by
      simpa only [AtOnce, not_or] using hlate
    rcases hall with rfl | rfl
    · -- The first chunk fits, so that something has been written.
      refine hstop (by omega) ⟨?_, by omega⟩
      exact hlength (Nat.not_lt.mp hin)
    · have hbound := hf'.regular.length_le
      have hfull := hlength (Nat.not_lt.mp hin)
      omega
  · intro hwhen
    by_contra hpart
    obtain ⟨hin, hchunk⟩ := hfirst (by omega)
    refine hstop (by omega) ⟨hlength hin, ?_⟩
    unfold AtOnce at hwhen
    omega

/-- A call that returns leaves no trace if it fails, and has written all its bytes if it does not, exactly
if the write does not go over the largest size in a later chunk than the first. -/
theorem filewrite_no_trace (h : f.Regular) (hwritable : f.writable = true) (htype : f.type = .inode)
    {addr : Nat → UInt8} {n r : Int} (hrun : filewrite addr n f = .ok (r, f')) :
    (r = -1 → f'.contents = f.contents ∧ f'.off = f.off) ∧
      (r ≠ -1 → r = n ∧ f'.contents = splice f.contents f.off (bytesAt addr 0 n.toNat) ∧ f'.off = f.off + n) ↔
    n ≤ maxChunk ∨ f.off + n ≤ MAXFILE * BSIZE ∨ f.contents.length < f.off ∨
      MAXFILE * BSIZE < f.off + maxChunk := by
  have hr : f.Roomy (fun _ => True) := ⟨fun h => absurd trivial h, fun h => absurd trivial h⟩
  obtain ⟨k, hle, hres, hf', hfirst, hstop⟩ := Run.wp_ok (wp_filewrite h hr hwritable htype addr n) hrun
  have hoff := hf'.off
  rw [length_bytesAt] at hoff
  rw [← AtOnce, ← hf'.all_or_none hle hfirst hstop]
  constructor
  · rintro ⟨hfailed, -⟩
    by_contra hpart
    rw [if_neg (by omega)] at hres
    have hkept := (hfailed hres).2
    omega
  · intro hall
    by_cases hn : (k : Int) = n
    · rw [if_pos hn] at hres
      obtain rfl : k = n.toNat := by omega
      exact ⟨fun hneg => by omega, fun _ => ⟨hres, hf'.contents, by omega⟩⟩
    · rw [if_neg hn] at hres
      obtain rfl : k = 0 := by omega
      refine ⟨fun _ => ⟨?_, hoff⟩, fun hne => absurd hres hne⟩
      rw [hf'.contents]
      exact splice_nil ..

/-- A new file, just opened -/
def opened (disk : Store) : Opened := ⟨disk, .inode, true, 1, 0, fun _ => -1⟩

theorem opened_wide : ∃ s : Store, runEvents Store.step wide newFile = .next s ∧ (opened s).Regular ∧
    (opened s).Roomy (fun _ => False) ∧ (opened s).contents = [] := by
  obtain ⟨s, hrun, hheld, htype, hsize, hfree, hout, hlh, hlog⟩ := Outcome.exists_of_holds
    (r := runEvents Store.step wide newFile)
    (Q := fun s : Store => s.held 1 ∧ (s.cur 1).type = T_FILE ∧ (s.cur 1).size = 0 ∧
      footprint MAXFILE ≤ s.freeBlocks ∧ s.outstanding = 0 ∧ s.lh = [] ∧ s.logsize = LOGSIZE)
    (by decide +kernel)
  have hsound : s.Sound := wide_sound.reach
    (.of_runEvents .init newFile (Along.of_forall (fun _ _ => trivial) _ _) hrun)
  have hcontents : (opened s).contents = [] :=
    List.eq_nil_of_length_eq_zero ((length_contents s 1).trans hsize)
  refine ⟨s, hrun, ⟨hsound, hheld.1, hsound.valid hheld.2, htype⟩, ⟨fun _ => ?_, fun _ => ?_⟩, hcontents⟩
  · exact hfree.trans (Nat.le_add_right ..)
  · refine ⟨hout, hlh, ?_⟩
    change _ ≤ min LOGSIZE (s.logsize - 1)
    rw [hlog]
    decide

theorem bytesAt_const (x : UInt8) (i n : Nat) : bytesAt (fun _ => x) i n = List.replicate n x := by
  rw [bytesAt, List.map_const', List.length_range]

theorem Appends.of_empty (h : Appends E l f f') (hcontents : f.contents = [])
    (hoff : f.off = 0) : f'.contents = l ∧ f'.off = l.length := by
  rw [h.contents, hcontents, h.off, hoff, splice]
  simp

theorem filewrite_no_trace_ten : ∃ f f' : Opened, f.Regular ∧ f.contents = [] ∧
    filewrite (fun _ => 7) 10 f = .ok (10, f') ∧ f'.contents = List.replicate 10 7 ∧ f'.off = 10 := by
  obtain ⟨s, -, hregular, hroomy, hempty⟩ := opened_wide
  obtain ⟨r, f', hrun, k, hk, hres, hf', -, hstop⟩ :=
    Run.exists_of_wp (wp_filewrite hregular hroomy rfl rfl (fun _ => 7) 10)
  obtain ⟨hcontents, hoff⟩ := hf'.of_empty hempty rfl
  rw [length_bytesAt] at hoff
  have hk : k = 10 := by
    by_contra hne
    refine hstop (by omega) ⟨?_, ?_⟩
    · rw [hcontents, hoff, length_bytesAt]
    · simp only [MAXFILE, NDIRECT, NINDIRECT, BSIZE]
      omega
  subst hk
  obtain rfl : r = 10 := hres
  obtain ⟨-, hok⟩ := (filewrite_no_trace hregular rfl rfl hrun).mpr (.inl (by decide))
  obtain ⟨-, hbytes, -⟩ := hok (by decide)
  rw [hempty, bytesAt_const] at hbytes
  exact ⟨_, f', hregular, hempty, hrun, hbytes, hoff⟩

/-- A write of one byte more than a file can have returns -1, when all chunks but the last are written. -/
theorem filewrite_partial : ∃ f f' : Opened, f.Regular ∧ f.writable = true ∧ f.type = .inode ∧
    f.contents = [] ∧ f.off = 0 ∧ filewrite (fun _ => 7) (MAXFILE * BSIZE + 1) f = .ok (-1, f') ∧
    f'.contents = List.replicate f'.off 7 ∧ (MAXFILE - 3) * BSIZE < f'.off := by
  obtain ⟨s, -, hregular, hroomy, hempty⟩ := opened_wide
  obtain ⟨r, f', hrun, k, hk, hres, hf', -, hstop⟩ :=
    Run.exists_of_wp (wp_filewrite hregular hroomy rfl rfl (fun _ => 7) (MAXFILE * BSIZE + 1))
  obtain ⟨hcontents, hoff⟩ := hf'.of_empty hempty rfl
  rw [length_bytesAt] at hoff
  rw [bytesAt_const] at hcontents
  -- the file cannot have all the bytes
  have hlength : f'.contents.length = k := by rw [hcontents, List.length_replicate]
  have hle := hf'.regular.length_le
  rw [hlength] at hle
  have hlast := hstop (by omega)
  rw [Fits, hlength, hoff] at hlast
  have hchunk : maxChunk = 3 * BSIZE := rfl
  simp only [MAXFILE, NDIRECT, NINDIRECT, BSIZE] at hle hlast hchunk
  refine ⟨_, f', hregular, rfl, rfl, hempty, rfl, ?_, by rw [hcontents, hoff], ?_⟩
  · rw [hrun, hres, if_neg]
    intro heq
    simp only [MAXFILE, NDIRECT, NINDIRECT, BSIZE] at heq
    omega
  · simp only [MAXFILE, NDIRECT, NINDIRECT, BSIZE]
    omega

end Opened

end Xv6
