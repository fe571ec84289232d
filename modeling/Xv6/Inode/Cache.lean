import Mathlib.Data.List.Count
import Mathlib.Data.List.FinRange
import Xv6.Lib.Run
import Xv6.Param

/-!
# The inode cache

`iget`, `idup`, `ilock`, `iunlock` and `iput` of `fs.c`, run by any number of processes.  A section
under `icache.lock` is one step, and so is the acquisition and the release of an inode's sleep-lock
and every access to the inode under it.  Of the copy of the disk inode the model keeps what these
functions look at.  A process calls `idup`, `ilock` and `iput` with references that it owns; it may
pass one on to another process, as processes that share a file do.
-/

namespace Xv6.Icache

abbrev Slot := Fin NINODE

structure Dinode where
  type : Int
  nlink : Int
  deriving DecidableEq

structure Inode (P : Type) where
  dev : Nat
  inum : Nat
  ref : Int
  lock : Option P
  valid : Bool
  /-- Copy of the disk inode -/
  copy : Dinode

/-- What a process does next. -/
inductive Pc where
  | idle
  /-- `ilock`: before `acquiresleep`, and before the test of `valid` -/
  | ilockAcquire (ip : Slot)
  | ilockRead (ip : Slot)
  /-- `iput`: before `acquiresleep` -/
  | iputAcquire (ip : Slot)
  /-- `if(ip->valid && ip->nlink == 0)` -/
  | iputTest (ip : Slot)
  /-- `int r = ip->ref`, and the test of `r` -/
  | iputRef (ip : Slot)
  /-- `itrunc(ip)`, `ip->type = 0` and `iupdate(ip)` -/
  | iputFree (ip : Slot)
  /-- `ip->valid = 0` -/
  | iputInvalid (ip : Slot)
  /-- `releasesleep(&ip->lock)` -/
  | iputRelease (ip : Slot)
  /-- `ip->ref--` -/
  | iputDrop (ip : Slot)
  deriving DecidableEq

/-- The slot that the process works on. -/
def Pc.slot : Pc → Option Slot
  | .idle => none
  | .ilockAcquire ip | .ilockRead ip | .iputAcquire ip | .iputTest ip | .iputRef ip | .iputFree ip
  | .iputInvalid ip | .iputRelease ip | .iputDrop ip => some ip

inductive Panic where
  | igetNoInodes
  | ilock
  | ilockNoType
  | iunlock
  deriving DecidableEq

end Icache

structure Icache (P : Type) where
  inode : Icache.Slot → Icache.Inode P
  /-- The inodes of each device -/
  disk : Nat → Nat → Icache.Dinode
  pc : P → Icache.Pc
  /-- The references that are owned, each with its owner -/
  refs : List (P × Icache.Slot)

namespace Icache

open Function (update_of_ne update_self)

inductive Event (P : Type) where
  | iget (p : P) (dev inum : Nat)
  | idup (p : P) (ip : Slot)
  | ilock (p : P) (ip : Slot)
  | iunlock (p : P) (ip : Slot)
  | iput (p : P) (ip : Slot)
  /-- The next step of `p` in `ilock` or `iput` -/
  | run (p : P)
  /-- `p` passes a reference on. -/
  | give (p q : P) (ip : Slot)
  /-- `p` has locked the inode, changes it and calls `iupdate`. -/
  | update (p : P) (ip : Slot) (x : Dinode)
  /-- An inode is changed on the disk only, by `ialloc`. -/
  | ialloc (dev inum : Nat) (x : Dinode)

variable {P : Type} [DecidableEq P] (s : Icache P)

def modify (ip : Slot) (f : Inode P → Inode P) : Icache P :=
  { s with inode := Function.update s.inode ip (f (s.inode ip)) }

def goto (p : P) (pc : Pc) : Icache P := { s with pc := Function.update s.pc p pc }

/-- The loop of `iget`: the inode if it is cached, and otherwise the empty slot it remembers. -/
def scan (dev inum : Nat) : List Slot → Option Slot → Slot ⊕ Option Slot
  | [], empty => .inr empty
  | ip :: rest, empty =>
    if 0 < (s.inode ip).ref ∧ (s.inode ip).dev = dev ∧ (s.inode ip).inum = inum then .inl ip
    else scan dev inum rest (if empty = none ∧ (s.inode ip).ref = 0 then some ip else empty)

def addRef (p : P) (ip : Slot) : Icache P :=
  { s.modify ip fun x => { x with ref := x.ref + 1 } with refs := (p, ip) :: s.refs }

def iget (p : P) (dev inum : Nat) : Outcome Panic (Icache P) :=
  match s.scan dev inum (List.finRange NINODE) none with
  | .inl ip => .next (s.addRef p ip)
  | .inr none => .panic .igetNoInodes
  | .inr (some ip) =>
    .next { s.modify ip fun x => { x with dev := dev, inum := inum, ref := 1, valid := false } with
      refs := (p, ip) :: s.refs }

/-- `acquiresleep(&ip->lock)` -/
def acquire (p : P) (ip : Slot) (pc : Pc) : Outcome Panic (Icache P) :=
  if (s.inode ip).lock = none then
    .next ((s.modify ip fun x => { x with lock := some p }).goto p pc)
  else .blocked

def run (p : P) : Outcome Panic (Icache P) :=
  match s.pc p with
  | .idle => .blocked
  | .ilockAcquire ip => s.acquire p ip (.ilockRead ip)
  | .ilockRead ip =>
    if (s.inode ip).valid then .next (s.goto p .idle)
    else
      let x := s.disk (s.inode ip).dev (s.inode ip).inum
      if x.type = 0 then .panic .ilockNoType
      else .next ((s.modify ip fun y => { y with copy := x, valid := true }).goto p .idle)
  | .iputAcquire ip => s.acquire p ip (.iputTest ip)
  | .iputTest ip =>
    if (s.inode ip).valid ∧ (s.inode ip).copy.nlink = 0 then .next (s.goto p (.iputRef ip))
    else .next (s.goto p (.iputRelease ip))
  | .iputRef ip =>
    if (s.inode ip).ref = 1 then .next (s.goto p (.iputFree ip))
    else .next (s.goto p (.iputRelease ip))
  | .iputFree ip =>
    let x := { (s.inode ip).copy with type := 0 }
    .next { (s.modify ip fun y => { y with copy := x }).goto p (.iputInvalid ip) with
      disk := Function.update s.disk (s.inode ip).dev
        (Function.update (s.disk (s.inode ip).dev) (s.inode ip).inum x) }
  | .iputInvalid ip =>
    .next ((s.modify ip fun y => { y with valid := false }).goto p (.iputRelease ip))
  | .iputRelease ip => .next ((s.modify ip fun y => { y with lock := none }).goto p (.iputDrop ip))
  | .iputDrop ip =>
    .next { (s.modify ip fun y => { y with ref := y.ref - 1 }).goto p .idle with
      refs := s.refs.erase (p, ip) }

/-- `p` is not in one of the functions and owns a reference. -/
def mayCall (p : P) (ip : Slot) : Prop := s.pc p = .idle ∧ (p, ip) ∈ s.refs

instance (p : P) (ip : Slot) : Decidable (s.mayCall p ip) := inferInstanceAs (Decidable (_ ∧ _))

def step : Event P → Outcome Panic (Icache P)
  | .iget p dev inum => if s.pc p = .idle then s.iget p dev inum else .blocked
  | .idup p ip => if s.mayCall p ip then .next (s.addRef p ip) else .blocked
  | .ilock p ip =>
    if s.mayCall p ip then
      if (s.inode ip).ref < 1 then .panic .ilock else .next (s.goto p (.ilockAcquire ip))
    else .blocked
  | .iunlock p ip =>
    if s.pc p = .idle then
      if (s.inode ip).lock ≠ some p ∨ (s.inode ip).ref < 1 then .panic .iunlock
      else .next (s.modify ip fun x => { x with lock := none })
    else .blocked
  | .iput p ip => if s.mayCall p ip then .next (s.goto p (.iputAcquire ip)) else .blocked
  | .run p => s.run p
  | .give p q ip =>
    if s.mayCall p ip then .next { s with refs := (q, ip) :: s.refs.erase (p, ip) } else .blocked
  | .update p ip x =>
    if s.pc p = .idle ∧ (s.inode ip).lock = some p then
      .next { s.modify ip fun y => { y with copy := x } with
        disk := Function.update s.disk (s.inode ip).dev
          (Function.update (s.disk (s.inode ip).dev) (s.inode ip).inum x) }
    else .blocked
  | .ialloc dev inum x =>
    .next { s with disk := Function.update s.disk dev (Function.update (s.disk dev) inum x) }

/-- `iinit` -/
def init (disk : Nat → Nat → Dinode) : Icache P where
  inode _ := ⟨0, 0, 0, none, false, ⟨0, 0⟩⟩
  disk := disk
  pc _ := .idle
  refs := []

/-- References to a slot that are owned. -/
def owned (i : Slot) : Nat := s.refs.countP fun r => r.2 = i

/-- `ref` counts the references that are owned, and no two slots in use carry the same inode. -/
structure Counted : Prop where
  ref : ∀ i, (s.inode i).ref = s.owned i
  unique : ∀ i j, 0 < (s.inode i).ref → 0 < (s.inode j).ref → (s.inode i).dev = (s.inode j).dev →
    (s.inode i).inum = (s.inode j).inum → i = j
  works : ∀ p i, (s.pc p).slot = some i → (p, i) ∈ s.refs

/-- An event that keeps the cache in order. -/
structure Effect (e : Event P) (s' : Icache P) : Prop where
  counted : s'.Counted
  /-- A slot in use is not re-assigned. -/
  stays : ∀ i, 0 < (s.inode i).ref →
    (s'.inode i).dev = (s.inode i).dev ∧ (s'.inode i).inum = (s.inode i).inum
  /-- A slot that is taken into use is not valid. -/
  fresh : ∀ i, (s.inode i).ref = 0 → 0 < (s'.inode i).ref → (s'.inode i).valid = false
  /-- Only `ilock` makes a slot valid, and it copies the disk inode. -/
  loads : ∀ i, (s.inode i).valid = false → (s'.inode i).valid = true →
    (∃ p, e = .run p ∧ s.pc p = .ilockRead i) ∧
      (s'.inode i).copy = s.disk (s.inode i).dev (s.inode i).inum
  /-- `ilock` returns with a valid slot. -/
  locks : ∀ i p, s.pc p = .ilockRead i → e = .run p → (s'.inode i).valid = true

variable {s} {s' : Icache P} {e : Event P} {p : P} {ip : Slot} {dev inum : Nat}

section

omit [DecidableEq P]

theorem inode_modify_self (ip : Slot) (f : Inode P → Inode P) :
    (s.modify ip f).inode ip = f (s.inode ip) := update_self ..

theorem inode_modify_of_ne {ip i : Slot} (h : i ≠ ip) (f : Inode P → Inode P) :
    (s.modify ip f).inode i = s.inode i := update_of_ne h ..

theorem inode_modify {f : Inode P → Inode P} {R : Inode P → Inode P → Prop} (hrefl : ∀ x, R x x)
    (hf : R (s.inode ip) (f (s.inode ip))) (i : Slot) :
    R (s.inode i) ((s.modify ip f).inode i) := by
  by_cases hi : i = ip
  · subst i
    rw [inode_modify_self]
    exact hf
  · rw [inode_modify_of_ne hi]
    exact hrefl _

/-- The slot keeps its inode and its count. -/
structure Same (x y : Inode P) : Prop where
  dev : y.dev = x.dev
  inum : y.inum = x.inum
  ref : y.ref = x.ref

theorem Same.refl (x : Inode P) : Same x x := ⟨rfl, rfl, rfl⟩

section

variable (h : s.Counted)
include h

section

variable (hsame : ∀ i, Same (s.inode i) (s'.inode i)) (howned : ∀ i, s'.owned i = s.owned i)
  (hworks : ∀ p i, (s'.pc p).slot = some i → (p, i) ∈ s'.refs)
include hsame howned hworks

theorem Counted.same : s'.Counted := by
  refine ⟨?_, ?_, hworks⟩
  · intro i
    rw [(hsame i).ref, h.ref, howned]
  · intro i j hi hj hdev hinum
    rw [(hsame i).ref] at hi
    rw [(hsame j).ref] at hj
    rw [(hsame i).dev, (hsame j).dev] at hdev
    rw [(hsame i).inum, (hsame j).inum] at hinum
    exact h.unique i j hi hj hdev hinum

theorem Effect.quiet (hvalid : ∀ i, (s'.inode i).valid = true → (s.inode i).valid = true)
    (hlocks : ∀ i p, s.pc p = .ilockRead i → e = .run p → (s'.inode i).valid = true) :
    Effect s e s' := by
  refine ⟨h.same hsame howned hworks, ?_, ?_, ?_, hlocks⟩
  · intro i _
    exact ⟨(hsame i).dev, (hsame i).inum⟩
  · intro i hzero hpos
    rw [(hsame i).ref] at hpos
    omega
  · intro i hfalse htrue
    rw [hvalid i htrue] at hfalse
    cases hfalse

end

theorem Effect.touch {x : Inode P} (hinode : s'.inode = Function.update s.inode ip x)
    (hrefs : s'.refs = s.refs) (hsame : Same (s.inode ip) x)
    (hvalid : x.valid = true → (s.inode ip).valid = true)
    (hworks : ∀ p i, (s'.pc p).slot = some i → (p, i) ∈ s.refs)
    (hlocks : ∀ i p, s.pc p = .ilockRead i → e ≠ .run p) : Effect s e s' := by
  have hcases : ∀ i, s'.inode i = s.inode i ∨ i = ip ∧ s'.inode i = x := by
    intro i
    rw [hinode]
    by_cases hi : i = ip
    · subst i
      exact .inr ⟨rfl, update_self ..⟩
    · exact .inl (update_of_ne hi ..)
  refine .quiet h ?_ ?_ ?_ ?_ fun i p hp he => absurd he (hlocks i p hp)
  · intro i
    rcases hcases i with hi | ⟨rfl, hi⟩
    · rw [hi]
      exact .refl _
    · rw [hi]
      exact hsame
  · intro i
    rw [owned, hrefs, owned]
  · intro p i hp
    rw [hrefs]
    exact hworks p i hp
  · intro i htrue
    rcases hcases i with hi | ⟨rfl, hi⟩
    · rwa [hi] at htrue
    · rw [hi] at htrue
      exact hvalid htrue

theorem Counted.ref_pos {i : Slot} (hi : (p, i) ∈ s.refs) : 0 < (s.inode i).ref := by
  have hpos : 0 < s.owned i := List.countP_pos_iff.mpr ⟨(p, i), hi, by simp⟩
  rw [h.ref]
  omega

theorem Effect.count (d : Int) (hpos : 0 < (s.inode ip).ref)
    (hinode : s'.inode = (s.modify ip fun x => { x with ref := x.ref + d }).inode)
    (howned : ∀ i, (s'.owned i : Int) = s.owned i + if i = ip then d else 0)
    (hworks : ∀ q i, (s'.pc q).slot = some i → (q, i) ∈ s'.refs)
    (hlocks : ∀ i q, s.pc q = .ilockRead i → e ≠ .run q) : Effect s e s' := by
  have hself : (s'.inode ip).ref = (s.inode ip).ref + d := by
    rw [hinode, inode_modify_self]
  have hother : ∀ i, i ≠ ip → s'.inode i = s.inode i := by
    intro i hi
    rw [hinode, inode_modify_of_ne hi]
  have hident : ∀ i, (s'.inode i).dev = (s.inode i).dev ∧ (s'.inode i).inum = (s.inode i).inum ∧
      (s'.inode i).valid = (s.inode i).valid := by
    rw [hinode]
    exact inode_modify (R := fun x y => y.dev = x.dev ∧ y.inum = x.inum ∧ y.valid = x.valid)
      (fun _ => ⟨rfl, rfl, rfl⟩) ⟨rfl, rfl, rfl⟩
  have hused : ∀ i, 0 < (s'.inode i).ref → 0 < (s.inode i).ref := by
    intro i hi
    by_cases hip : i = ip
    · exact hip ▸ hpos
    · rwa [hother i hip] at hi
  refine ⟨⟨?_, ?_, hworks⟩, ?_, ?_, ?_, ?_⟩
  · intro i
    rw [howned]
    by_cases hip : i = ip
    · subst i
      rw [hself, h.ref, if_pos rfl]
    · rw [hother i hip, h.ref, if_neg hip, Int.add_zero]
  · intro i j hi hj hdev hinum
    rw [(hident i).1, (hident j).1] at hdev
    rw [(hident i).2.1, (hident j).2.1] at hinum
    exact h.unique i j (hused i hi) (hused j hj) hdev hinum
  · intro i _
    exact ⟨(hident i).1, (hident i).2.1⟩
  · intro i hzero hi
    have := hused i hi
    omega
  · intro i hfalse htrue
    rw [(hident i).2.2, hfalse] at htrue
    cases htrue
  · intro i q hq hrun
    exact absurd hrun (hlocks i q hq)

/-- `ip->ref++` -/
theorem Effect.addRef (hpos : 0 < (s.inode ip).ref)
    (he : ∀ q, e ≠ .run q) : Effect s e (s.addRef p ip) := by
  refine .count h 1 hpos rfl ?_ ?_ fun _ q _ => he q
  · intro i
    have hcons : (s.addRef p ip).owned i = s.owned i + if ip = i then 1 else 0 := by
      simp [owned, Icache.addRef, List.countP_cons]
    rw [hcons]
    by_cases hip : i = ip
    · simp [hip]
    · simp [hip, Ne.symm hip]
  · intro q i hq
    exact List.mem_cons_of_mem _ (h.works q i hq)

end

theorem scan_inl {l : List Slot} {empty : Option Slot}
    (h : s.scan dev inum l empty = .inl ip) : 0 < (s.inode ip).ref := by
  induction l generalizing empty with
  | nil => cases h
  | cons i l ih =>
    rw [scan] at h
    split at h
    · cases h
      exact ‹_ ∧ _›.1
    · exact ih h

theorem scan_inr {l : List Slot} {empty r : Option Slot} (h : s.scan dev inum l empty = .inr r) :
    (∀ i ∈ l, 0 < (s.inode i).ref → (s.inode i).dev = dev → (s.inode i).inum ≠ inum) ∧
    ∀ ip, r = some ip → empty = some ip ∨ (s.inode ip).ref = 0 := by
  induction l generalizing empty with
  | nil =>
    cases h
    exact ⟨nofun, fun ip hip => .inl hip⟩
  | cons i l ih =>
    rw [scan] at h
    split at h
    · cases h
    · rename_i hne
      obtain ⟨hrest, hempty⟩ := ih h
      refine ⟨?_, ?_⟩
      · intro j hj hpos hdev hinum
        rcases List.mem_cons.mp hj with rfl | hj
        · exact hne ⟨hpos, hdev, hinum⟩
        · exact hrest j hj hpos hdev hinum
      · intro ip hip
        rcases hempty ip hip with hip | hzero
        · split at hip
          · cases hip
            exact .inr ‹_ ∧ _›.2
          · exact .inl hip
        · exact .inr hzero

theorem Effect.assign (h : s.Counted)
    (hscan : s.scan dev inum (List.finRange NINODE) none = .inr (some ip)) (he : ∀ q, e ≠ .run q) :
    Effect s e
      { s.modify ip fun x => { x with dev := dev, inum := inum, ref := 1, valid := false } with
        refs := (p, ip) :: s.refs } := by
  obtain ⟨hnew, hempty⟩ := scan_inr hscan
  have hzero : (s.inode ip).ref = 0 := (hempty ip rfl).resolve_left nofun
  set t := s.modify ip fun x => { x with dev := dev, inum := inum, ref := 1, valid := false }
  have hself : t.inode ip = { s.inode ip with dev := dev, inum := inum, ref := 1, valid := false } :=
    inode_modify_self ..
  have hother : ∀ i, i ≠ ip → t.inode i = s.inode i := fun i hi => inode_modify_of_ne hi _
  refine ⟨⟨?_, ?_, ?_⟩, ?_, ?_, ?_, ?_⟩
  · intro i
    have hcons : ((p, ip) :: s.refs).countP (fun r => r.2 = i) =
        s.owned i + if ip = i then 1 else 0 := by
      simp [owned, List.countP_cons]
    change (t.inode i).ref = (((p, ip) :: s.refs).countP (fun r => r.2 = i) : Int)
    rw [hcons]
    by_cases hip : i = ip
    · subst i
      rw [h.ref] at hzero
      rw [hself, if_pos rfl]
      dsimp only
      omega
    · rw [hother i hip, h.ref, if_neg (Ne.symm hip), Nat.add_zero]
  · intro i j hi hj hdev hinum
    dsimp only at hi hj hdev hinum
    by_cases hiip : i = ip
    · by_cases hjip : j = ip
      · rw [hiip, hjip]
      · rw [hiip, hself, hother j hjip] at hdev hinum
        rw [hother j hjip] at hj
        exact absurd hinum.symm (hnew j (List.mem_finRange j) hj hdev.symm)
    · rw [hother i hiip] at hi hdev hinum
      by_cases hjip : j = ip
      · rw [hjip, hself] at hdev hinum
        exact absurd hinum (hnew i (List.mem_finRange i) hi hdev)
      · rw [hother j hjip] at hj hdev hinum
        exact h.unique i j hi hj hdev hinum
  · intro q i hq
    exact List.mem_cons_of_mem _ (h.works q i hq)
  · intro i hi
    have hip : i ≠ ip := by
      rintro rfl
      omega
    dsimp only
    rw [hother i hip]
    exact ⟨rfl, rfl⟩
  · intro i hi hi'
    dsimp only at hi' ⊢
    by_cases hip : i = ip
    · rw [hip, hself]
    · rw [hother i hip] at hi'
      omega
  · intro i hfalse htrue
    dsimp only at htrue
    by_cases hip : i = ip
    · rw [hip, hself] at htrue
      cases htrue
    · rw [hother i hip, hfalse] at htrue
      cases htrue
  · intro i q _ hrun
    exact absurd hrun (he q)

theorem Effect.iget (h : s.Counted) (hs : s.iget p dev inum = .next s')
    (he : ∀ q, e ≠ .run q) : Effect s e s' := by
  rw [Icache.iget] at hs
  split at hs
  · cases hs
    exact .addRef h (scan_inl ‹_›) he
  · cases hs
  · cases hs
    exact .assign h ‹_› he

end

section

variable (h : s.Counted)
include h

theorem works_goto {pc : Pc} (hpc : pc.slot = none ∨ pc.slot = (s.pc p).slot) (q : P) (i : Slot)
    (hq : (Function.update s.pc p pc q).slot = some i) : (q, i) ∈ s.refs := by
  by_cases hqp : q = p
  · subst q
    rw [update_self] at hq
    rcases hpc with hpc | hpc
    · rw [hpc] at hq
      cases hq
    · exact h.works p i (hpc ▸ hq)
  · rw [update_of_ne hqp] at hq
    exact h.works q i hq

/-- `ip->ref--` -/
theorem Effect.drop (hpc : s.pc p = .iputDrop ip) :
    Effect s (.run p) { (s.modify ip fun y => { y with ref := y.ref - 1 }).goto p .idle with
      refs := s.refs.erase (p, ip) } := by
  have hmem : (p, ip) ∈ s.refs := h.works p ip (by rw [hpc]; rfl)
  have hpos := h.ref_pos hmem
  refine .count h (-1) hpos rfl ?_ ?_ ?_
  · intro i
    have herase : (s.refs.erase (p, ip)).countP (fun r => r.2 = i) =
        s.owned i - if ip = i then 1 else 0 := by
      rw [List.countP_erase, owned]
      simp [hmem]
    change ((s.refs.erase (p, ip)).countP (fun r => r.2 = i) : Int) = _
    rw [herase]
    rw [h.ref] at hpos
    by_cases hip : i = ip
    · subst i
      simp only [if_true]
      omega
    · simp [hip, Ne.symm hip]
  · intro q i hq
    have hqp : q ≠ p := by
      rintro rfl
      simp [Icache.goto, Pc.slot] at hq
    have hq' : (s.pc q).slot = some i := by
      simpa [Icache.goto, hqp, Icache.modify] using hq
    exact (List.mem_erase_of_ne (by simp [hqp])).mpr (h.works q i hq')
  · intro i q hq hrun
    cases hrun
    rw [hpc] at hq
    cases hq

/-- A step within a function, to another point where the process works on the same slot -/
theorem Effect.move {pc pc' : Pc} {x : Inode P} (hinode : s'.inode = Function.update s.inode ip x)
    (hpcs : s'.pc = Function.update s.pc p pc') (hrefs : s'.refs = s.refs) (hpc : s.pc p = pc)
    (hread : ∀ i, pc ≠ .ilockRead i) (hslot : pc'.slot = pc.slot) (hsame : Same (s.inode ip) x)
    (hvalid : x.valid = true → (s.inode ip).valid = true) :
    Effect s (.run p) s' := by
  refine .touch h hinode hrefs hsame hvalid ?_ ?_
  · rw [hpcs]
    exact works_goto h (.inr (by rw [hpc, hslot]))
  · rintro i q hq ⟨⟩
    exact hread i (hpc.symm.trans hq)

theorem Effect.acquire {pc pc' : Pc} (hs : s.acquire p ip pc' = .next s') (hpc : s.pc p = pc)
    (hread : ∀ i, pc ≠ .ilockRead i) (hslot : pc'.slot = pc.slot) : Effect s (.run p) s' := by
  rw [Icache.acquire] at hs
  split at hs
  · cases hs
    exact .move h rfl rfl rfl hpc hread hslot ⟨rfl, rfl, rfl⟩ id
  · cases hs

/-- `ilock` finds the slot valid. -/
theorem Effect.found (hpc : s.pc p = .ilockRead ip) (hvalid : (s.inode ip).valid = true) :
    Effect s (.run p) (s.goto p .idle) := by
  refine .quiet h (fun i => .refl _) (fun _ => rfl) (works_goto h (.inl rfl)) (fun _ => id) ?_
  rintro i q hq ⟨⟩
  cases hpc.symm.trans hq
  exact hvalid

theorem Effect.load (hpc : s.pc p = .ilockRead ip) :
    Effect s (.run p) ((s.modify ip fun y =>
      { y with copy := s.disk (s.inode ip).dev (s.inode ip).inum, valid := true }).goto p .idle) := by
  set t := s.modify ip fun y =>
    { y with copy := s.disk (s.inode ip).dev (s.inode ip).inum, valid := true }
  have hself : t.inode ip =
      { s.inode ip with copy := s.disk (s.inode ip).dev (s.inode ip).inum, valid := true } :=
    inode_modify_self ..
  have hother : ∀ i, i ≠ ip → t.inode i = s.inode i := fun i hi => inode_modify_of_ne hi _
  have hsame : ∀ i, Same (s.inode i) (t.inode i) := inode_modify Same.refl ⟨rfl, rfl, rfl⟩
  refine ⟨h.same hsame (fun _ => rfl) (works_goto h (.inl rfl)), ?_, ?_, ?_, ?_⟩
  · intro i _
    exact ⟨(hsame i).dev, (hsame i).inum⟩
  · intro i hzero hpos
    have hpos' : 0 < (t.inode i).ref := hpos
    rw [(hsame i).ref] at hpos'
    omega
  · intro i hfalse htrue
    have hip : i = ip := by
      by_contra hip
      have htrue' : (t.inode i).valid = true := htrue
      rw [hother i hip, hfalse] at htrue'
      cases htrue'
    subst i
    refine ⟨⟨p, rfl, hpc⟩, ?_⟩
    change (t.inode ip).copy = _
    rw [hself]
  · intro i q hq he
    cases he
    rw [hpc] at hq
    cases hq
    change (t.inode ip).valid = true
    rw [hself]

theorem Effect.run (hs : s.run p = .next s') : Effect s (.run p) s' := by
  cases hpc : s.pc p with
  | idle =>
    rw [Icache.run, hpc] at hs
    cases hs
  | ilockAcquire ip | iputAcquire ip =>
    rw [Icache.run, hpc] at hs
    exact .acquire h hs hpc nofun rfl
  | ilockRead ip =>
    rw [Icache.run, hpc] at hs
    dsimp only at hs
    split at hs
    next hvalid =>
      cases hs
      exact .found h hpc hvalid
    next =>
      split at hs <;> cases hs
      exact .load h hpc
  | iputTest ip | iputRef ip =>
    have hsame := (Function.update_eq_self ip s.inode).symm
    rw [Icache.run, hpc] at hs
    dsimp only at hs
    split at hs <;> cases hs
    · exact .move h hsame rfl rfl hpc nofun rfl (.refl _) id
    · exact .move h hsame rfl rfl hpc nofun rfl (.refl _) id
  | iputFree ip | iputRelease ip =>
    rw [Icache.run, hpc] at hs
    cases hs
    exact .move h rfl rfl rfl hpc nofun rfl ⟨rfl, rfl, rfl⟩ id
  | iputInvalid ip =>
    rw [Icache.run, hpc] at hs
    cases hs
    exact .move h rfl rfl rfl hpc nofun rfl ⟨rfl, rfl, rfl⟩ nofun
  | iputDrop ip =>
    rw [Icache.run, hpc] at hs
    cases hs
    exact .drop h hpc

theorem Effect.enter {pc : Pc} (hcall : s.mayCall p ip) (hpc : pc.slot = some ip)
    (he : ∀ q, e ≠ .run q) : Effect s e (s.goto p pc) := by
  refine .quiet h (fun i => .refl _) (fun _ => rfl) ?_ (fun _ => id) fun _ q _ hrun => absurd hrun (he q)
  intro q i hq
  by_cases hqp : q = p
  · subst q
    simp only [Icache.goto, update_self, hpc, Option.some.injEq] at hq
    exact hq ▸ hcall.2
  · simp only [Icache.goto, update_of_ne hqp] at hq
    exact h.works q i hq

theorem Effect.step (hs : s.step e = .next s') : Effect s e s' := by
  cases e with
  | iget p dev inum =>
    rw [Icache.step] at hs
    split at hs
    · exact .iget h hs nofun
    · cases hs
  | idup p ip =>
    rw [Icache.step] at hs
    split at hs
    · rename_i hcall
      cases hs
      exact .addRef h (h.ref_pos hcall.2) nofun
    · cases hs
  | ilock p ip =>
    rw [Icache.step] at hs
    split at hs
    · rename_i hcall
      split at hs
      · cases hs
      · cases hs
        exact .enter h hcall rfl nofun
    · cases hs
  | iunlock p ip =>
    rw [Icache.step] at hs
    split at hs
    · split at hs
      · cases hs
      · cases hs
        exact .touch h rfl rfl ⟨rfl, rfl, rfl⟩ id h.works nofun
    · cases hs
  | iput p ip =>
    rw [Icache.step] at hs
    split at hs
    · rename_i hcall
      cases hs
      exact .enter h hcall rfl nofun
    · cases hs
  | run p => exact .run h hs
  | give p q ip =>
    rw [Icache.step] at hs
    split at hs
    · rename_i hcall
      cases hs
      refine .quiet h (fun i => .refl _) ?_ ?_ (fun _ => id) nofun
      · intro i
        have hpos : 0 < s.owned ip := List.countP_pos_iff.mpr ⟨(p, ip), hcall.2, by simp⟩
        rw [owned, List.countP_cons, List.countP_erase, ← owned]
        by_cases hip : ip = i
        · subst i
          simp [hcall.2]
          omega
        · simp [hip]
      · intro r i hr
        have hrp : r ≠ p := by
          rintro rfl
          rw [hcall.1] at hr
          cases hr
        exact List.mem_cons_of_mem _
          ((List.mem_erase_of_ne (by simp [hrp])).mpr (h.works r i hr))
    · cases hs
  | update p ip x =>
    rw [Icache.step] at hs
    split at hs
    · cases hs
      exact .touch h rfl rfl ⟨rfl, rfl, rfl⟩ id h.works nofun
    · cases hs
  | ialloc dev inum x =>
    cases hs
    exact .quiet h (fun i => .refl _) (fun _ => rfl) h.works (fun _ => id) nofun

end

omit [DecidableEq P] in
theorem Counted.init (disk : Nat → Nat → Dinode) : (Icache.init disk : Icache P).Counted where
  ref _ := rfl
  unique _ _ h := by simp [Icache.init] at h
  works _ _ h := by simp [Icache.init, Pc.slot] at h

/-- In every state that is reached, no two slots in use carry the same inode and no count is
negative; and every step leaves the slots in use with their inodes, takes a slot into use as not
valid, and makes a slot valid only in `ilock`, by reading the disk inode, which `ilock` does before
it returns if the slot is not valid. -/
theorem icache_unique {disk : Nat → Nat → Dinode} {s : Icache P}
    (h : Reach Icache.step (fun _ _ => True) (Icache.init disk) s) :
    (∀ i j, 0 < (s.inode i).ref → 0 < (s.inode j).ref → (s.inode i).dev = (s.inode j).dev →
      (s.inode i).inum = (s.inode j).inum → i = j) ∧
    (∀ i, 0 ≤ (s.inode i).ref) ∧
    ∀ e s', s.step e = .next s' → ∀ i,
      (0 < (s.inode i).ref →
        (s'.inode i).dev = (s.inode i).dev ∧ (s'.inode i).inum = (s.inode i).inum) ∧
      ((s.inode i).ref = 0 → 0 < (s'.inode i).ref → (s'.inode i).valid = false) ∧
      ((s.inode i).valid = false → (s'.inode i).valid = true →
        (∃ p, e = .run p ∧ s.pc p = .ilockRead i) ∧
          (s'.inode i).copy = s.disk (s.inode i).dev (s.inode i).inum) ∧
      ∀ p, s.pc p = .ilockRead i → e = .run p → (s'.inode i).valid = true := by
  have hc : s.Counted := h.invariant (.init disk) fun _ _ _ hc _ hs => (Effect.step hc hs).counted
  refine ⟨hc.unique, ?_, ?_⟩
  · intro i
    rw [hc.ref]
    exact Int.natCast_nonneg _
  · intro e s' hs i
    have heffect := Effect.step hc hs
    exact ⟨heffect.stays i, heffect.fresh i, heffect.loads i, heffect.locks i⟩

/-- Two processes get the same inode, which has no links; one of them locks it and puts it, and leaves
it to the other. -/
def sharedEvents : List (Event Bool) :=
  [.iget true 1 7, .iget false 1 7, .ilock true 0, .run true, .run true, .iunlock true 0,
    .iput true 0, .run true, .run true, .run true, .run true, .run true]

theorem icache_unique_shared : ∃ s : Icache Bool,
    runEvents Icache.step (Icache.init fun _ _ => ⟨1, 0⟩) sharedEvents = .next s ∧
    (s.inode 0).ref = 1 ∧ (s.inode 0).valid = true ∧ s.refs = [(false, 0)] ∧
    ∀ i, 0 < (s.inode i).ref → (s.inode 0).dev = (s.inode i).dev →
      (s.inode 0).inum = (s.inode i).inum → 0 = i := by
  obtain ⟨s, hrun, href, hvalid, hrefs⟩ := Outcome.exists_of_holds
    (r := runEvents Icache.step (Icache.init fun _ _ => ⟨1, 0⟩) sharedEvents)
    (Q := fun s => (s.inode 0).ref = 1 ∧ (s.inode 0).valid = true ∧ s.refs = [(false, 0)])
    (by decide +kernel)
  have hreach : Reach Icache.step (fun _ _ => True) (Icache.init fun _ _ => ⟨1, 0⟩) s :=
    Reach.of_runEvents .init _ (Along.of_forall (fun _ _ => trivial) _ _) hrun
  refine ⟨s, hrun, href, hvalid, hrefs, fun i hi => ?_⟩
  exact (icache_unique hreach).1 0 i (by omega) hi

end Icache

end Xv6
