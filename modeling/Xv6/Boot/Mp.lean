import Mathlib.Tactic.Ring
import Xv6.Param

/-!
# The MP configuration table

At boot `mpinit` looks for the table of the processors in physical memory and goes through its entries.
Addresses are physical ones.
-/

namespace Xv6

namespace Mp

/-- Memory, what `mpinit` sets, and the ports of the IMCR -/
structure Machine where
  mem : Nat → UInt8
  ncpu : Nat
  /-- `cpus[i].apicid` -/
  apicid : Nat → UInt8
  ioapicid : UInt8
  lapic : Nat
  /-- What `inb(0x23)` reads -/
  imcr : UInt8
  /-- The bytes put out, with their ports -/
  outb : List (Nat × UInt8)

inductive MpPanic where
  /-- "Expect to run on an SMP" -/
  | expectSmp
  /-- "Didn't find a suitable machine" -/
  | unsuitable
  deriving DecidableEq

def MPPROC : UInt8 := 0
def MPBUS : UInt8 := 1
def MPIOAPIC : UInt8 := 2
def MPIOINTR : UInt8 := 3
def MPLINTR : UInt8 := 4

/-- `sizeof(struct mp)` -/
def mpSize : Nat := 16
/-- `sizeof(struct mpconf)` -/
def mpconfSize : Nat := 44
/-- `sizeof(struct mpproc)` -/
def mpprocSize : Nat := 20
/-- `sizeof(struct mpioapic)` -/
def mpioapicSize : Nat := 8

section

variable (mem : Nat → UInt8)

def ushortAt (a : Nat) : Nat := (mem a).toNat + 256 * (mem (a + 1)).toNat

def uintAt (a : Nat) : Nat := ushortAt mem a + 65536 * ushortAt mem (a + 2)

def bytesAt (a n : Nat) : List UInt8 := (List.range n).map fun k => mem (a + k)

def sum (addr len : Nat) : UInt8 := ((bytesAt mem addr len).map UInt8.toNat).sum.toUInt8

def mpsearch1 (a len : Nat) : Option Nat :=
  ((List.range ((len + mpSize - 1) / mpSize)).map fun k => a + k * mpSize).find? fun p =>
    bytesAt mem p 4 = [95, 77, 80, 95] && sum mem p mpSize == 0

def mpsearch : Option Nat :=
  let p := ushortAt mem 0x40E * 16
  if p ≠ 0 then
    match mpsearch1 mem p 1024 with
    | some mp => some mp
    | none => mpsearch1 mem 0xF0000 0x10000
  else
    let p := ushortAt mem 0x413 * 1024
    match mpsearch1 mem ((p + (2 ^ 32 - 1024)) % 2 ^ 32) 1024 with
    | some mp => some mp
    | none => mpsearch1 mem 0xF0000 0x10000

/-- `conf->length` -/
def length (conf : Nat) : Nat := ushortAt mem (conf + 4)

/-- `mpconfig`, with the addresses of the `struct mp` and of the table -/
def mpconfig : Option (Nat × Nat) :=
  match mpsearch mem with
  | none => none
  | some mp =>
    let conf := uintAt mem (mp + 4)
    if conf = 0 then none
    else if bytesAt mem conf 4 ≠ [80, 67, 77, 80] then none
    else if mem (conf + 6) ≠ 1 ∧ mem (conf + 6) ≠ 4 then none
    else if sum mem conf (length mem conf) ≠ 0 then none
    else some (mp, conf)

end

/-- The variables of the loop of `mpinit` -/
structure Entries where
  p : Nat
  ismp : Bool
  s : Machine

/-- The `switch` -/
def entryStep (l : Entries) : Entries :=
  let type := l.s.mem l.p
  if type = MPPROC then
    { l with
      p := l.p + mpprocSize
      s := if l.s.ncpu < NCPU then
          { l.s with
            apicid := Function.update l.s.apicid l.s.ncpu (l.s.mem (l.p + 1))
            ncpu := l.s.ncpu + 1 }
        else l.s }
  else if type = MPIOAPIC then
    { l with p := l.p + mpioapicSize, s := { l.s with ioapicid := l.s.mem (l.p + 1) } }
  else if type = MPBUS ∨ type = MPIOINTR ∨ type = MPLINTR then { l with p := l.p + 8 }
  -- the `break` leaves the `switch` only
  else { l with ismp := false }

/-- `for(...; p < e; )`, which may not be through after `n` rounds -/
def entryLoop (e : Nat) : Nat → Entries → Option Entries
  | 0, _ => none
  | n + 1, l => if l.p < e then entryLoop e n (entryStep l) else some l

def Machine.maskImcr (s : Machine) : Machine :=
  { s with outb := s.outb ++ [(0x22, 0x70), (0x23, s.imcr ||| 1)] }

/-- `mpinit`, if its loop ends within `n` rounds -/
def mpinit (n : Nat) (s : Machine) : Option (Except MpPanic Machine) :=
  match mpconfig s.mem with
  | none => some (.error .expectSmp)
  | some (mp, conf) =>
    let start : Entries := ⟨conf + mpconfSize, true, { s with lapic := uintAt s.mem (conf + 36) }⟩
    match entryLoop (conf + length s.mem conf) n start with
    | none => none
    | some l =>
      if l.ismp = false then some (.error .unsuitable)
      else if l.s.mem (mp + 12) ≠ 0 then some (.ok l.s.maskImcr)
      else some (.ok l.s)

/-- The size of an entry, if its type is known -/
def entrySize (type : UInt8) : Option Nat :=
  if type = MPPROC then some mpprocSize
  else if type = MPIOAPIC then some mpioapicSize
  else if type = MPBUS ∨ type = MPIOINTR ∨ type = MPLINTR then some 8
  else none

/-- There is an entry of unknown type among those from `p` on, before `e`. -/
inductive UnknownEntry (mem : Nat → UInt8) (e : Nat) : Nat → Prop where
  | here {p : Nat} : p < e → entrySize (mem p) = none → UnknownEntry mem e p
  | later {p k : Nat} : p < e → entrySize (mem p) = some k → UnknownEntry mem e (p + k) →
      UnknownEntry mem e p

variable {e n m : Nat} {l l' : Entries}

theorem mem_entryStep (l : Entries) : (entryStep l).s.mem = l.s.mem := by
  rw [entryStep]
  dsimp only
  split
  · split <;> rfl
  · split
    · rfl
    · split <;> rfl

theorem ncpu_entryStep (h : l.s.ncpu ≤ NCPU) : (entryStep l).s.ncpu ≤ NCPU := by
  rw [entryStep]
  dsimp only
  split
  · split
    · rename_i hlt
      exact hlt
    · exact h
  · split
    · exact h
    · split <;> exact h

theorem entryStep_known {k : Nat} (h : entrySize (l.s.mem l.p) = some k) :
    (entryStep l).p = l.p + k ∧ (entryStep l).ismp = l.ismp ∧ 0 < k := by
  rw [entrySize] at h
  rw [entryStep]
  dsimp only
  split
  · rw [if_pos ‹_›] at h
    cases h
    exact ⟨rfl, rfl, by decide⟩
  · rw [if_neg ‹_›] at h
    split
    · rw [if_pos ‹_›] at h
      cases h
      exact ⟨rfl, rfl, by decide⟩
    · rw [if_neg ‹_›] at h
      split
      · rw [if_pos ‹_›] at h
        cases h
        exact ⟨rfl, rfl, by decide⟩
      · rw [if_neg ‹_›] at h
        cases h

theorem entryStep_unknown (h : entrySize (l.s.mem l.p) = none) : (entryStep l).p = l.p := by
  rw [entrySize] at h
  rw [entryStep]
  dsimp only
  split
  · rw [if_pos ‹_›] at h
    cases h
  · rw [if_neg ‹_›] at h
    split
    · rw [if_pos ‹_›] at h
      cases h
    · rw [if_neg ‹_›] at h
      split
      · rw [if_pos ‹_›] at h
        cases h
      · rfl

theorem entryLoop_mono (h : entryLoop e n l = some l') (hm : n ≤ m) : entryLoop e m l = some l' := by
  induction n generalizing l m with
  | zero => cases h
  | succ n ih =>
    obtain ⟨m, rfl⟩ := Nat.exists_eq_succ_of_ne_zero (Nat.ne_of_gt (Nat.lt_of_lt_of_le n.succ_pos hm))
    rw [entryLoop] at h ⊢
    split
    · rw [if_pos ‹_›] at h
      exact ih h (Nat.le_of_succ_le_succ hm)
    · rw [if_neg ‹_›] at h
      exact h

theorem entryLoop_ends (hknown : ¬UnknownEntry l.s.mem e l.p) (hcpu : l.s.ncpu ≤ NCPU) (hn : e - l.p < n) :
    ∃ l', entryLoop e n l = some l' ∧ l'.ismp = l.ismp ∧ l'.s.ncpu ≤ NCPU := by
  induction n generalizing l with
  | zero => cases hn
  | succ n ih =>
    rw [entryLoop]
    split
    · rename_i hlt
      cases hsize : entrySize (l.s.mem l.p) with
      | none => exact absurd (.here hlt hsize) hknown
      | some k =>
        obtain ⟨hp, hismp, hk⟩ := entryStep_known hsize
        rw [← hismp]
        apply ih
        · rw [mem_entryStep, hp]
          exact fun h => hknown (.later hlt hsize h)
        · exact ncpu_entryStep hcpu
        · omega
    · exact ⟨l, rfl, rfl, hcpu⟩

theorem entryLoop_unknown (h : UnknownEntry l.s.mem e l.p) (n : Nat) : entryLoop e n l = none := by
  induction n generalizing l with
  | zero => rfl
  | succ n ih =>
    rw [entryLoop]
    cases h with
    | here hlt hsize =>
      rw [if_pos hlt]
      apply ih
      rw [mem_entryStep, entryStep_unknown hsize]
      exact .here hlt hsize
    | later hlt hsize hlater =>
      rw [if_pos hlt]
      apply ih
      rw [mem_entryStep, (entryStep_known hsize).1]
      exact hlater

section

variable {s : Machine} {mp conf : Nat} (hconf : mpconfig s.mem = some (mp, conf))
include hconf

theorem mpinit_known (hcpu : s.ncpu ≤ NCPU)
    (hknown : ¬UnknownEntry s.mem (conf + length s.mem conf) (conf + mpconfSize)) :
    ∃ n s', (∀ m, n ≤ m → mpinit m s = some (.ok s')) ∧ s'.ncpu ≤ NCPU := by
  obtain ⟨l, hl, hismp, hle⟩ := entryLoop_ends
    (l := ⟨conf + mpconfSize, true, { s with lapic := uintAt s.mem (conf + 36) }⟩) hknown hcpu
    (Nat.lt_succ_self _)
  have hrun (m : Nat) (hm : conf + length s.mem conf - (conf + mpconfSize) + 1 ≤ m) :
      mpinit m s = if l.s.mem (mp + 12) ≠ 0 then some (.ok l.s.maskImcr) else some (.ok l.s) := by
    rw [mpinit, hconf]
    dsimp only
    rw [entryLoop_mono hl hm]
    dsimp only
    rw [hismp, if_neg (show ¬true = false by decide)]
  refine ⟨conf + length s.mem conf - (conf + mpconfSize) + 1, ?_⟩
  by_cases himcr : l.s.mem (mp + 12) ≠ 0
  · refine ⟨l.s.maskImcr, fun m hm => ?_, hle⟩
    rw [hrun m hm, if_pos himcr]
  · refine ⟨l.s, fun m hm => ?_, hle⟩
    rw [hrun m hm, if_neg himcr]

theorem mpinit_unknown (h : UnknownEntry s.mem (conf + length s.mem conf) (conf + mpconfSize)) (n : Nat) :
    mpinit n s = none := by
  rw [mpinit, hconf]
  dsimp only
  rw [entryLoop_unknown h]

end

/-- `mpinit` comes to its end exactly if all entries of the table have a known type, and then it does not
panic. -/
theorem mpinit_ends {s : Machine} (hcpu : s.ncpu ≤ NCPU) {mp conf : Nat}
    (hconf : mpconfig s.mem = some (mp, conf)) :
    ((∃ n r, mpinit n s = some r) ↔
      ¬UnknownEntry s.mem (conf + length s.mem conf) (conf + mpconfSize)) ∧
    (¬UnknownEntry s.mem (conf + length s.mem conf) (conf + mpconfSize) →
      ∃ n s', (∀ m, n ≤ m → mpinit m s = some (.ok s')) ∧ s'.ncpu ≤ NCPU) := by
  refine ⟨⟨?_, fun hknown => ?_⟩, mpinit_known hconf hcpu⟩
  · rintro ⟨n, r, hr⟩ hunknown
    rw [mpinit_unknown hconf hunknown] at hr
    cases hr
  · obtain ⟨n, s', hrun, -⟩ := mpinit_known hconf hcpu hknown
    exact ⟨n, _, hrun n (Nat.le_refl n)⟩

/-- A machine with a table at 0x9FD00 -/
def withTable (conf : List UInt8) : Machine where
  mem a :=
    if a = 0x40E then 0xC0
    else if a = 0x40F then 0x9F
    else if 0x9FD00 ≤ a then conf.getD (a - 0x9FD00) 0
    else if 0x9FC00 ≤ a then
      [95, 77, 80, 95, 0x00, 0xFD, 0x09, 0x00, 1, 1, 157, 0, 0, 0, 0, 0].getD (a - 0x9FC00) 0
    else 0
  ncpu := 0
  apicid _ := 0
  ioapicid := 0
  lapic := 0
  imcr := 0
  outb := []

/-- A table with one processor -/
def oneProcessor : List UInt8 := [80, 67, 77, 80, 64, 0, 1, 143]

theorem mpinit_ends_oneProcessor : ∃ n s', mpinit n (withTable oneProcessor) = some (.ok s') ∧
    s'.ncpu ≤ NCPU := by
  have hknown : ¬UnknownEntry (withTable oneProcessor).mem (0x9FD00 + 64) (0x9FD00 + mpconfSize) := by
    intro h
    cases h with
    | here _ hsize =>
      revert hsize
      decide
    | later _ hsize hlater =>
      have hk := hsize.symm.trans (show _ = some mpprocSize by decide)
      cases hk
      cases hlater with
      | here hlt _ | later hlt _ _ => exact absurd hlt (by decide)
  have hconf : mpconfig (withTable oneProcessor).mem = some (0x9FC00, 0x9FD00) := by decide +kernel
  obtain ⟨n, s', hrun, hle⟩ := (mpinit_ends (by decide) hconf).2 hknown
  exact ⟨n, s', hrun n (Nat.le_refl n), hle⟩

/-- A table that ends with an entry of type 5 -/
def strangeEntry : List UInt8 := [80, 67, 77, 80, 45, 0, 1, 157] ++ List.replicate 36 0 ++ [5]

/-- The table is accepted, and the loop does not end. -/
theorem mpinit_hangs : mpconfig (withTable strangeEntry).mem = some (0x9FC00, 0x9FD00) ∧
    UnknownEntry (withTable strangeEntry).mem (0x9FD00 + length (withTable strangeEntry).mem 0x9FD00)
      (0x9FD00 + mpconfSize) ∧
    ∀ n, mpinit n (withTable strangeEntry) = none := by
  have hconf : mpconfig (withTable strangeEntry).mem = some (0x9FC00, 0x9FD00) := by decide +kernel
  have hunknown : UnknownEntry (withTable strangeEntry).mem
      (0x9FD00 + length (withTable strangeEntry).mem 0x9FD00) (0x9FD00 + mpconfSize) :=
    .here (by decide +kernel) (by decide +kernel)
  exact ⟨hconf, hunknown, mpinit_unknown hconf hunknown⟩

end Mp

end Xv6
