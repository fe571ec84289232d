import Xv6.Disk.Filewrite

/-!
# The blocks that a chunk logs

What a program logs does not depend on what is in the log already: it adds the same blocks to any log.  So
the distinct blocks that it logs are those that it leaves in an empty log.
-/

namespace Xv6

variable {l l' L : List Nat}

theorem mem_foldl_absorb {b : Nat} : b ∈ L.foldl absorb l ↔ b ∈ L ∨ b ∈ l := by
  induction L generalizing l with
  | nil => simp
  | cons c L ih =>
    rw [List.foldl_cons, ih, mem_absorb, List.mem_cons]
    tauto

theorem nodup_foldl_absorb (h : l.Nodup) : (L.foldl absorb l).Nodup := by
  induction L generalizing l with
  | nil => exact h
  | cons c L ih => exact ih (absorb_nodup h c)

theorem foldl_absorb_subset (h : l ⊆ l') : L.foldl absorb l ⊆ L.foldl absorb l' := by
  intro b hb
  exact mem_foldl_absorb.mpr ((mem_foldl_absorb.mp hb).imp_right fun hl => h hl)

theorem foldl_absorb_distinct (l L : List Nat) : (L.foldl absorb []).foldl absorb l = L.foldl absorb l := by
  induction L using List.reverseRecOn with
  | nil => rfl
  | append_singleton L b ih =>
    rw [List.foldl_append, List.foldl_append, List.foldl_cons, List.foldl_nil, List.foldl_cons,
      List.foldl_nil]
    by_cases hb : b ∈ L.foldl absorb []
    · have hmem : b ∈ L.foldl absorb l := by
        rw [← ih]
        exact mem_foldl_absorb.mpr (.inl hb)
      rw [absorb, if_pos hb, ih, absorb, if_pos hmem]
    · rw [absorb, if_neg hb, List.foldl_append, ih]
      rfl

namespace Store

variable {α β : Type}

def relog (s : Store) (lh : List Nat) : Store := { s with lh }

/-- With fewer blocks in the log, the program returns the same and adds the same to the log. -/
def Lifts (m : DiskM α) : Prop := ∀ ⦃s s' : Store⦄ ⦃l l' : List Nat⦄ ⦃x : α⦄, l.Nodup → l ⊆ l' →
  m (s.relog l') = .ok (x, s') →
  ∃ L : List Nat, s'.lh = L.foldl absorb l' ∧ m (s.relog l) = .ok (x, s'.relog (L.foldl absorb l))

theorem lifts_pure (x : α) : Lifts (pure x : DiskM α) := by
  intro s s' l l' y _ _ h
  cases h
  exact ⟨[], rfl, rfl⟩

theorem lifts_throw (e : StorePanic) : Lifts (throw e : DiskM α) := by
  intro s s' l l' y _ _ h
  cases h

theorem Lifts.bind {m : DiskM α} {f : α → DiskM β} (hm : Lifts m) (hf : ∀ x, Lifts (f x)) :
    Lifts (m >>= f) := by
  intro s s' l l' y hl hsub h
  obtain ⟨x, t, ht, hs'⟩ := Run.bind_eq_ok.mp h
  obtain ⟨L, hlh, hlow⟩ := hm hl hsub ht
  have hself : t = t.relog (L.foldl absorb l') := by rw [← hlh]; rfl
  rw [hself] at hs'
  obtain ⟨L', hlh', hlow'⟩ := hf x (nodup_foldl_absorb hl) (foldl_absorb_subset hsub) hs'
  refine ⟨L ++ L', by rw [hlh', List.foldl_append], Run.bind_eq_ok.mpr ⟨x, _, hlow, ?_⟩⟩
  rw [List.foldl_append]
  exact hlow'

theorem lifts_get {f : Store → DiskM α} (hf : ∀ s, Lifts (f s)) (hlog : ∀ s l, f (s.relog l) = f s) :
    Lifts (get >>= f) := by
  intro s s' l l' y hl hsub h
  obtain ⟨x, t, ht, hs'⟩ := Run.bind_eq_ok.mp h
  cases ht
  rw [hlog] at hs'
  obtain ⟨L, hlh, hlow⟩ := hf s hl hsub hs'
  refine ⟨L, hlh, Run.bind_eq_ok.mpr ⟨_, _, rfl, ?_⟩⟩
  rw [hlog]
  exact hlow

theorem lifts_modify {f : Store → Store} (hf : ∀ s l, f (s.relog l) = (f s).relog l) :
    Lifts (modify f : DiskM Unit) := by
  intro s s' l l' y _ _ h
  have hs' : s' = f (s.relog l') := by cases h; rfl
  refine ⟨[], ?_, ?_⟩
  · rw [hs', hf]
    rfl
  · change Except.ok ((), f (s.relog l)) = _
    rw [hs', hf, hf]
    rfl

theorem lifts_ite {p : Prop} [Decidable p] {m m' : DiskM α} (hm : Lifts m) (hm' : Lifts m') :
    Lifts (if p then m else m') := by
  split
  · exact hm
  · exact hm'

theorem lifts_bread (b : Nat) : Lifts (bread b) := lifts_get (fun _ => lifts_pure _) fun _ _ => rfl

theorem lifts_logWrite (b : Nat) (data : Block) : Lifts (logWrite b data) := by
  intro s s' l l' y hl hsub h
  have hlen := (hl.subperm hsub).length_le
  obtain ⟨x, t, ht, hs'⟩ := Run.bind_eq_ok.mp h
  cases ht
  split at hs'
  · cases hs'
  rename_i hroom
  split at hs'
  · cases hs'
  rename_i hopen
  cases hs'
  refine ⟨[b], rfl, Run.bind_eq_ok.mpr ⟨_, _, rfl, ?_⟩⟩
  have hroom' : ¬((s.relog l).lh.length ≥ LOGSIZE ∨ (s.relog l).lh.length + 1 ≥ (s.relog l).logsize) := by
    change ¬(l'.length ≥ LOGSIZE ∨ l'.length + 1 ≥ s.logsize) at hroom
    change ¬(l.length ≥ LOGSIZE ∨ l.length + 1 ≥ s.logsize)
    omega
  have hopen' : ¬(s.relog l).outstanding < 1 := hopen
  rw [if_neg hroom', if_neg hopen']
  rfl

theorem lifts_ballocFrom (bs : List Nat) : Lifts (ballocFrom bs) := by
  induction bs with
  | nil => exact lifts_throw _
  | cons b bs ih =>
    rw [ballocFrom]
    refine lifts_get (fun s => (lifts_bread _).bind fun bp => ?_) fun _ _ => rfl
    split
    · exact (lifts_logWrite ..).bind fun _ => (lifts_logWrite ..).bind fun _ => lifts_pure _
    · exact ih

theorem lifts_balloc : Lifts balloc := lifts_get (fun _ => lifts_ballocFrom _) fun _ _ => rfl

theorem lifts_modifyInode (i : Nat) (f : Dinode → Dinode) : Lifts (modifyInode i f) :=
  lifts_modify fun _ _ => rfl

theorem lifts_iupdate (i : Nat) : Lifts (iupdate i) :=
  lifts_get (fun _ => (lifts_bread _).bind fun _ => lifts_logWrite ..) fun _ _ => rfl

theorem lifts_slotBlock (i : Nat) (k : Fin (NDIRECT + 1)) : Lifts (slotBlock i k) := by
  refine lifts_get (fun s => lifts_ite ?_ (lifts_pure _)) fun _ _ => rfl
  exact lifts_balloc.bind fun _ => (lifts_modifyInode ..).bind fun _ => lifts_pure _

theorem lifts_bmap (i bn : Nat) : Lifts (bmap i bn) := by
  rw [bmap]
  split
  · exact lifts_slotBlock ..
  refine lifts_ite ?_ (lifts_throw _)
  refine (lifts_slotBlock ..).bind fun addr => (lifts_bread _).bind fun bp => lifts_ite ?_ (lifts_pure _)
  exact lifts_balloc.bind fun _ => (lifts_logWrite ..).bind fun _ => lifts_pure _

theorem lifts_writeLoop (i fuel off : Nat) (src : List UInt8) : Lifts (writeLoop i fuel off src) := by
  induction fuel generalizing off src with
  | zero => exact lifts_pure _
  | succ fuel ih =>
    rw [writeLoop]
    refine lifts_ite (lifts_pure _) ?_
    exact (lifts_bmap ..).bind fun _ => (lifts_bread _).bind fun _ => (lifts_logWrite ..).bind fun _ => ih ..

theorem lifts_writei (i off : Nat) (src : List UInt8) : Lifts (writei i off src) := by
  refine lifts_get (fun s => lifts_ite ?_ (lifts_ite (lifts_pure _) (lifts_ite (lifts_pure _) ?_)))
    fun _ _ => rfl
  · refine lifts_ite (lifts_pure _) ?_
    split <;> exact lifts_pure _
  · refine (lifts_writeLoop ..).bind fun off => lifts_get (fun s => lifts_ite ?_ (lifts_pure _))
      fun _ _ => rfl
    exact (lifts_modifyInode ..).bind fun _ => (lifts_iupdate _).bind fun _ => lifts_pure _

theorem ilock_run (s : Store) (i : Nat) : ilock i s =
    if (s.inode i).ref < 1 then .error .ilock
    else if (s.inode i).valid then .ok ((), s)
    else if (s.diskDinode i).type = 0 then .error .ilockNoType
    else .ok ((), s.setIncore i { s.inode i with d := s.diskDinode i, valid := true }) := by
  refine Run.run_of_wp ?_
  rw [ilock, Run.wp_bind, Run.wp_get]
  dsimp only
  split
  · exact (Run.wp_throw ..).mpr rfl
  split
  · exact (Run.wp_pure ..).mpr rfl
  rw [Run.wp_bind]
  refine wp_bread ?_
  rw [Run.wp_bind, Run.wp_set]
  change Run.wp _ (if (s.diskDinode i).type = 0 then _ else _) _ _
  split
  · exact (Run.wp_throw ..).mpr rfl
  · exact (Run.wp_pure ..).mpr rfl

theorem lifts_ilock (i : Nat) : Lifts (ilock i) := by
  intro s s' l l' y _ _ h
  rw [ilock_run] at h ⊢
  change (if (s.inode i).ref < 1 then _ else if (s.inode i).valid then _
    else if (s.diskDinode i).type = 0 then _ else _) = _ at h
  refine ⟨[], ?_, ?_⟩
  · split_ifs at h <;> cases h <;> rfl
  · change (if (s.inode i).ref < 1 then _ else if (s.inode i).valid then _
      else if (s.diskDinode i).type = 0 then _ else _) = _
    split_ifs at h ⊢ <;> cases h <;> rfl

/-- The part of a chunk that uses the disk -/
def chunkDisk (ip off : Nat) (l : List UInt8) : DiskM Int := do
  Op.prog .beginOp
  ilock ip
  writei ip off l

theorem lifts_chunkDisk (ip off : Nat) (l : List UInt8) : Lifts (chunkDisk ip off l) :=
  (lifts_modify fun _ _ => rfl).bind fun _ => (lifts_ilock ip).bind fun _ => lifts_writei ..

end Store

namespace Opened

open Store

variable {f f' : Opened}

def relog (f : Opened) (lh : List Nat) : Opened := { f with disk := f.disk.relog lh }

theorem chunkOp_eq_ok {l : List UInt8} {r : Int} :
    chunkOp l f = .ok (r, f') ↔ ∃ disk, chunkDisk f.ip f.off l f.disk = .ok (r, disk) ∧
      f' = if r > 0 then { f with disk, off := (f.off + r.toNat) % 2 ^ 32 } else { f with disk } := by
  constructor
  · intro h
    obtain ⟨_, _, hget, h⟩ := Run.bind_eq_ok.mp h
    cases hget
    obtain ⟨_, _, hfirst, h⟩ := Run.bind_eq_ok.mp h
    obtain ⟨d₁, hbegin, rfl⟩ := onDisk_eq_ok.mp hfirst
    obtain ⟨_, _, hsecond, h⟩ := Run.bind_eq_ok.mp h
    obtain ⟨d₂, hlock, rfl⟩ := onDisk_eq_ok.mp hsecond
    obtain ⟨_, _, hget, h⟩ := Run.bind_eq_ok.mp h
    cases hget
    obtain ⟨r', _, hthird, h⟩ := Run.bind_eq_ok.mp h
    obtain ⟨d₃, hwrite, rfl⟩ := onDisk_eq_ok.mp hthird
    obtain ⟨_, _, hmodify, h⟩ := Run.bind_eq_ok.mp h
    cases hmodify
    cases h
    exact ⟨d₃, Run.bind_eq_ok.mpr ⟨_, _, hbegin, Run.bind_eq_ok.mpr ⟨_, _, hlock, hwrite⟩⟩, rfl⟩
  · rintro ⟨d₃, h, rfl⟩
    obtain ⟨_, d₁, hbegin, h⟩ := Run.bind_eq_ok.mp h
    obtain ⟨_, d₂, hlock, hwrite⟩ := Run.bind_eq_ok.mp h
    refine Run.bind_eq_ok.mpr ⟨f, f, rfl, Run.bind_eq_ok.mpr
      ⟨_, _, onDisk_eq_ok.mpr ⟨d₁, hbegin, rfl⟩, Run.bind_eq_ok.mpr
        ⟨_, _, onDisk_eq_ok.mpr ⟨d₂, hlock, rfl⟩, Run.bind_eq_ok.mpr ⟨_, _, rfl, Run.bind_eq_ok.mpr
          ⟨r, _, onDisk_eq_ok.mpr ⟨d₃, hwrite, rfl⟩, Run.bind_eq_ok.mpr ⟨_, _, rfl, ?_⟩⟩⟩⟩⟩⟩
    rfl

theorem Regular.chunk_length_le (h : f.Regular) {l : List UInt8} (hlen : l.length ≤ maxChunk) {r : Int}
    (hrun : chunkOp l (f.relog []) = .ok (r, f')) : f'.disk.lh.length ≤ MAXOPBLOCKS := by
  have hwp : Run.wp (fun _ => True) (chunkOp l) (fun _ f' => f'.disk.lh.length ≤ MAXOPBLOCKS)
      (f.relog []) := by
    refine wp_chunkOp (f := f.relog []) (h.relog _ []) hlen (fun t _ _ => ?_) (fun _ t ht => ?_) fun hin t ht disk hw => ?_
    · exact ⟨fun he => absurd trivial he, fun he => absurd trivial he, fun he => absurd trivial he⟩
    · change t.lh.length ≤ _
      rw [ht.same]
      exact Nat.zero_le _
    · have hlog : disk.lh.length ≤ t.lh.length + (span f.off l.length +
          (blocksOf (f.off + l.length) - blocksOf (t.inode f.ip).d.size) + 3) := hw.spends.log
      have hempty : t.lh = [] := by rw [ht.same]; rfl
      have hsize : (t.inode f.ip).d.size = f.contents.length := by
        rw [show f.ip = (f.relog []).ip from rfl, ht.inode]
        exact (length_contents ..).symm
      rw [hempty, hsize, List.length_nil, Nat.zero_add] at hlog
      exact hlog.trans (chunk_cost_le hlen hin.1)
  exact Run.wp_ok (Q := fun _ f' => f'.disk.lh.length ≤ MAXOPBLOCKS) hwp hrun

/-- In each round of its loop `filewrite` logs at most as many distinct blocks as `begin_op` reserves:
there is one list of so many blocks that the round adds to the log, whatever the log holds. -/
theorem chunk_logs (h : f.Regular) (addr : Nat → UInt8) (n : Int) (i : Nat) :
    ∃ L : List Nat, L.Nodup ∧ L.length ≤ MAXOPBLOCKS ∧ ∀ lh r f',
      chunkOp (bytesAt addr i (min (n.toNat - i) maxChunk)) (f.relog lh) = .ok (r, f') →
      f'.disk.lh = L.foldl absorb lh := by
  generalize hl : bytesAt addr i (min (n.toNat - i) maxChunk) = l
  have hlen : l.length ≤ maxChunk := by
    rw [← hl, length_bytesAt]
    exact min_le_right ..
  -- every run is a run from an empty log, with the blocks of that one added
  have hlift {lh : List Nat} {r : Int} {f' : Opened} (hrun : chunkOp l (f.relog lh) = .ok (r, f')) :
      ∃ f₀, chunkOp l (f.relog []) = .ok (r, f₀) ∧ f₀.disk.lh.Nodup ∧
        f'.disk.lh = f₀.disk.lh.foldl absorb lh := by
    obtain ⟨disk, hdisk, rfl⟩ := chunkOp_eq_ok.mp hrun
    obtain ⟨L, hL, hlow⟩ := lifts_chunkDisk f.ip f.off l List.nodup_nil (List.nil_subset lh) hdisk
    refine ⟨_, chunkOp_eq_ok.mpr ⟨_, hlow, rfl⟩, ?_, ?_⟩
    · split <;> exact nodup_foldl_absorb List.nodup_nil
    · split <;> exact hL.trans (foldl_absorb_distinct lh L).symm
  by_cases hex : ∃ r f₀, chunkOp l (f.relog []) = .ok (r, f₀)
  · obtain ⟨r, f₀, hrun⟩ := hex
    obtain ⟨f₁, hrun', hnodup, -⟩ := hlift hrun
    rw [hrun] at hrun'
    cases hrun'
    refine ⟨f₀.disk.lh, hnodup, h.chunk_length_le hlen hrun, fun lh r' f' hf' => ?_⟩
    obtain ⟨f₂, hf₂, -, hlh⟩ := hlift hf'
    rw [hrun] at hf₂
    cases hf₂
    exact hlh
  · refine ⟨[], List.nodup_nil, Nat.zero_le _, fun lh r' f' hf' => ?_⟩
    obtain ⟨f₀, hf₀, -⟩ := hlift hf'
    exact absurd ⟨r', f₀, hf₀⟩ hex

/-- Three blocks of a new file are logged with the block of the bitmap and that of the inode. -/
theorem chunk_logs_three : ∃ f f' : Opened, f.Regular ∧
    chunkOp (bytesAt (fun _ => 7) 0 maxChunk) f = .ok (maxChunk, f') ∧ f'.disk.lh.length = 5 ∧
    ∃ L : List Nat, L.length ≤ MAXOPBLOCKS ∧ f'.disk.lh = L.foldl absorb [] := by
  obtain ⟨s, hrun, hlh, hchunk⟩ := Outcome.exists_of_holds
    (r := runEvents Store.step wide newFile)
    (Q := fun s : Store => s.lh = [] ∧
      (match chunkOp (bytesAt (fun _ => 7) 0 maxChunk) (opened s) with
        | .ok (r, f') => r = maxChunk && f'.disk.lh.length == 5
        | .error _ => false) = true) (by decide +kernel)
  obtain ⟨s', hrun', hregular, -⟩ := opened_wide
  rw [hrun] at hrun'
  cases hrun'
  split at hchunk
  · rename_i r f' hf'
    simp only [Bool.and_eq_true, decide_eq_true_eq, beq_iff_eq] at hchunk
    obtain ⟨L, -, hL, hlog⟩ := chunk_logs hregular (fun _ => 7) maxChunk 0
    have hsame : (opened s).relog [] = opened s := by rw [← hlh]; rfl
    refine ⟨opened s, f', hregular, by rw [hf', hchunk.1], hchunk.2, L, hL, hlog [] r f' ?_⟩
    rw [hsame]
    exact hf'
  · cases hchunk

end Opened

end Xv6
