import Mathlib.Data.List.TakeWhile
import Xv6.Dir.Calls

/-!
# Names and directories as bytes

`strncmp`, `strncpy` and the buffer that `skipelem` fills, and the loops of `dirlookup`, `dirlink` and
`isdirempty` over the bytes of a directory.  Each does to the bytes what its counterpart in
`Xv6.Dir.Calls` does to names and dirents.
-/

namespace Xv6

/-- `strncmp` of two strings in memory; what lies past the end of a list reads as zero. -/
def strncmp : Nat → List UInt8 → List UInt8 → Int
  | 0, _, _ => 0
  | n + 1, p, q =>
    if p.headD 0 ≠ 0 ∧ p.headD 0 = q.headD 0 then strncmp n p.tail q.tail
    else (p.headD 0).toNat - (q.headD 0).toNat

/-- The `n` bytes that `strncpy` stores. -/
def strncpy : Nat → List UInt8 → List UInt8
  | 0, _ => []
  | n + 1, t =>
    if t.headD 0 ≠ 0 then t.headD 0 :: strncpy n t.tail else List.replicate (n + 1) 0

/-- The string that stands in the first `n` bytes, which need not have a zero at the end. -/
def cstr : Nat → List UInt8 → List UInt8
  | 0, _ => []
  | n + 1, p => if p.headD 0 ≠ 0 then p.headD 0 :: cstr n p.tail else []

theorem strncmp_eq_zero (n : Nat) (p q : List UInt8) :
    strncmp n p q = 0 ↔ cstr n p = cstr n q := by
  induction n generalizing p q with
  | zero => simp [strncmp, cstr]
  | succ n ih =>
    rw [strncmp, cstr, cstr]
    by_cases heq : p.headD 0 = q.headD 0
    · rw [heq]
      by_cases hzero : q.headD 0 = 0
      · rw [if_neg (fun h => h.1 hzero), if_neg (not_not.mpr hzero), if_neg (not_not.mpr hzero)]
        simp
      · rw [if_pos ⟨hzero, rfl⟩, if_pos hzero, if_pos hzero, ih]
        simp
    · have hdiff : (p.headD 0).toNat ≠ (q.headD 0).toNat := fun h => heq (UInt8.toNat_inj.mp h)
      rw [if_neg fun h => heq h.2]
      have hleft : ¬((p.headD 0).toNat : Int) - (q.headD 0).toNat = 0 := by omega
      have hright : ¬(if p.headD 0 ≠ 0 then p.headD 0 :: cstr n p.tail else []) =
          if q.headD 0 ≠ 0 then q.headD 0 :: cstr n q.tail else [] := by
        split_ifs with hp hq hq
        · exact fun h => heq (List.cons.inj h).1
        · exact not_false
        · exact not_false
        · exact absurd ((not_not.mp hp).trans (not_not.mp hq).symm) heq
      exact iff_of_false hleft hright

theorem length_strncpy (n : Nat) (t : List UInt8) : (strncpy n t).length = n := by
  induction n generalizing t with
  | zero => rfl
  | succ n ih =>
    rw [strncpy]
    split_ifs
    · simp [ih]
    · simp

theorem cstr_strncpy (n : Nat) (t : List UInt8) : cstr n (strncpy n t) = cstr n t := by
  induction n generalizing t with
  | zero => rfl
  | succ n ih =>
    rw [strncpy, cstr, cstr]
    split_ifs with ht h
    · simp only [List.headD_cons, List.tail_cons, ih]
    · exact absurd (List.headD_cons ..) (fun h' => h (h' ▸ ht))
    · simp [List.replicate_succ] at *
    · rfl

theorem cstr_append {n : Nat} {s : List UInt8} (rest : List UInt8) (hs : 0 ∉ s) (hlen : s.length ≤ n)
    (hrest : s.length < n → rest.headD 0 = 0) : cstr n (s ++ rest) = s := by
  induction n generalizing s with
  | zero =>
    obtain rfl := List.length_eq_zero_iff.mp (Nat.le_zero.mp hlen)
    rfl
  | succ n ih =>
    rw [cstr]
    cases s with
    | nil =>
      rw [List.nil_append, if_neg]
      exact not_not.mpr (hrest (Nat.succ_pos n))
    | cons c s =>
      have hc : c ≠ 0 := fun h => hs (h ▸ List.mem_cons_self)
      have htail : 0 ∉ s := fun h => hs (List.mem_cons_of_mem _ h)
      simp only [List.length_cons] at hlen hrest
      rw [List.cons_append, List.headD_cons, List.tail_cons, if_pos hc,
        ih htail (by omega) fun h => hrest (by omega)]

def namecmp (s t : List UInt8) : Int := strncmp DIRSIZ s t

/-- `skipelem` with the buffer `name` as it leaves it. -/
def skipelemInto (name : List UInt8) (path : Path) : Option (List UInt8 × Path) :=
  let s := path.dropWhile (· == slash)
  if s = [] then none
  else
    let elem := s.takeWhile (· != slash)
    some (if elem.length ≥ DIRSIZ then elem.take DIRSIZ
        else elem ++ 0 :: name.drop (elem.length + 1),
      (s.dropWhile (· != slash)).dropWhile (· == slash))

/-- What path elements are and what a dirent can hold. -/
def validName (name : Name) : Prop :=
  name ≠ [] ∧ slash ∉ name ∧ 0 ∉ name ∧ name.length ≤ DIRSIZ

theorem validName.cstr_eq {name : Name} (h : validName name) : cstr DIRSIZ name = name := by
  have hname := cstr_append [] h.2.2.1 h.2.2.2 (fun _ => rfl)
  rwa [List.append_nil] at hname

/-- Whatever the buffer held before, it then holds the name. -/
theorem skipelemInto_cstr (name : List UInt8) {path : Path} (hpath : 0 ∉ path) :
    (skipelemInto name path).map (fun r => (cstr DIRSIZ r.1, r.2)) = skipelem path := by
  simp only [skipelemInto, skipelem]
  split_ifs with hs hlen
  · rfl
  all_goals
    have helem : 0 ∉ (path.dropWhile (· == slash)).takeWhile (· != slash) := fun h =>
      hpath ((List.dropWhile_suffix _).mem ((List.takeWhile_prefix _).mem h))
    simp only [Option.map_some, Option.some.injEq, Prod.mk.injEq, and_true]
  · have htake : 0 ∉ ((path.dropWhile (· == slash)).takeWhile (· != slash)).take DIRSIZ :=
      fun h => helem (List.mem_of_mem_take h)
    have hcstr := cstr_append (n := DIRSIZ) [] htake (by simp) (fun _ => rfl)
    rwa [List.append_nil] at hcstr
  · rw [List.take_of_length_le (by omega)]
    exact cstr_append _ helem (by omega) fun _ => rfl

theorem skipelem_valid {path rest : Path} {name : Name} (hpath : 0 ∉ path)
    (h : skipelem path = some (name, rest)) : validName name ∧ 0 ∉ rest := by
  simp only [skipelem] at h
  split_ifs at h with hs
  obtain ⟨rfl, rfl⟩ := Prod.mk.inj (Option.some.inj h)
  have hsub {c : UInt8} (hc : c ∈ path.dropWhile (· == slash)) : c ∈ path :=
    (List.dropWhile_suffix _).mem hc
  refine ⟨⟨?_, ?_, ?_, ?_⟩, ?_⟩
  · obtain ⟨c, s, hc⟩ := List.exists_cons_of_ne_nil hs
    have hfirst : c ≠ slash := by
      intro he
      have hhead := List.head?_dropWhile_not (· == slash) path
      simp [hc, he] at hhead
    rw [hc, List.takeWhile_cons_of_pos (by simpa using hfirst)]
    simp
  · intro hmem
    have hpred := List.mem_takeWhile_imp (List.mem_of_mem_take hmem)
    simp at hpred
  · exact fun hmem => hpath (hsub ((List.takeWhile_prefix _).mem (List.mem_of_mem_take hmem)))
  · exact List.length_take_le _ _
  · exact fun hmem => hpath (hsub ((List.dropWhile_suffix _).mem ((List.dropWhile_suffix _).mem hmem)))

theorem pathElems_valid {path : Path} (hpath : 0 ∉ path) {name : Name} (h : name ∈ pathElems path) :
    validName name := by
  unfold pathElems at h
  generalize path.length = fuel at h
  induction fuel generalizing path with
  | zero => simp [pathElemsFrom] at h
  | succ fuel ih =>
    rw [pathElemsFrom] at h
    split at h
    · simp at h
    · rename_i elem rest hskip
      have hvalid := skipelem_valid hpath hskip
      rcases List.mem_cons.mp h with rfl | h
      · exact hvalid.1
      · exact ih hvalid.2 h

inductive DirPanic where
  | dirlookupRead
  | dirlinkRead
  | isdiremptyReadi
  deriving DecidableEq

/-- `struct dirent` in memory. -/
def Dirent.bytes (de : Dirent) : List UInt8 :=
  UInt8.ofNat de.inum :: UInt8.ofNat (de.inum / 256) :: strncpy DIRSIZ de.name

/-- `de.inum` -/
def inumOf (de : List UInt8) : Nat := (de.headD 0).toNat + 256 * (de.tail.headD 0).toNat

/-- `de.name` -/
def nameOf (de : List UInt8) : List UInt8 := de.drop 2

/-- The contents of a directory. -/
def dirBytes (ents : List Dirent) : List UInt8 := ents.flatMap Dirent.bytes

/-- The bytes that `readi` of a directory copies, or `none` for -1. -/
def readData (data : List UInt8) (off n : Nat) : Option (List UInt8) :=
  if off > data.length then none else some ((data.drop off).take n)

/-- The contents after `writei` to a directory, or `none` for -1. -/
def writeData (data : List UInt8) (off : Nat) (src : List UInt8) : Option (List UInt8) :=
  if off > data.length ∨ off + src.length > MAXFILE * BSIZE then none
  else some (data.take off ++ src ++ data.drop (off + src.length))

/-- The loop over the dirents of a directory: the offset at which it ends, at a dirent that `stop`
accepts or past the last one. -/
def scan (e : DirPanic) (data : List UInt8) (stop : List UInt8 → Bool) :
    Nat → Nat → Except DirPanic Nat
  | 0, off => .ok off
  | fuel + 1, off =>
    if off < data.length then
      match readData data off DIRENTSIZE with
      | none => .error e
      | some de =>
        if de.length ≠ DIRENTSIZE then .error e
        else if stop de then .ok off
        else scan e data stop fuel (off + DIRENTSIZE)
    else .ok off

/-- Inode number and offset that `dirlookup` finds. -/
def dirlookupBytes (data name : List UInt8) : Except DirPanic (Option (Nat × Nat)) := do
  let off ← scan .dirlookupRead data
    (fun de => inumOf de != 0 && namecmp name (nameOf de) == 0) data.length 0
  pure (if off < data.length then some (inumOf (data.drop off), off) else none)

/-- The offset at which `dirlink` writes. -/
def emptySlotBytes (data : List UInt8) : Except DirPanic Nat :=
  scan .dirlinkRead data (fun de => inumOf de == 0) data.length 0

def isdiremptyBytes (data : List UInt8) : Except DirPanic Bool := do
  let off ← scan .isdiremptyReadi data (fun de => inumOf de != 0) data.length (2 * DIRENTSIZE)
  pure (decide (data.length ≤ off))

theorem Dirent.length_bytes (de : Dirent) : de.bytes.length = DIRENTSIZE := by
  simp [Dirent.bytes, length_strncpy]

theorem length_dirBytes (ents : List Dirent) : (dirBytes ents).length = DIRENTSIZE * ents.length := by
  induction ents with
  | nil => rfl
  | cons de ents ih =>
    have hde := de.length_bytes
    have hcons : dirBytes (de :: ents) = de.bytes ++ dirBytes ents := List.flatMap_cons ..
    rw [hcons, List.length_append, hde, ih, List.length_cons, Nat.mul_succ, Nat.add_comm]

theorem dirBytes_append (a b : List Dirent) : dirBytes (a ++ b) = dirBytes a ++ dirBytes b :=
  List.flatMap_append ..

theorem drop_dirBytes (ents : List Dirent) (k : Nat) :
    (dirBytes ents).drop (DIRENTSIZE * k) = dirBytes (ents.drop k) := by
  by_cases hk : k ≤ ents.length
  · conv_lhs => rw [← List.take_append_drop k ents, dirBytes_append]
    refine List.drop_left' ?_
    rw [length_dirBytes, List.length_take_of_le hk]
  · rw [List.drop_eq_nil_of_le (by omega : ents.length ≤ k)]
    refine List.drop_eq_nil_of_le ?_
    rw [length_dirBytes]
    exact Nat.mul_le_mul_left _ (by omega)

theorem take_dirBytes {ents : List Dirent} {k : Nat} (hk : k ≤ ents.length) :
    (dirBytes ents).take (DIRENTSIZE * k) = dirBytes (ents.take k) := by
  conv_lhs => rw [← List.take_append_drop k ents, dirBytes_append]
  refine List.take_left' ?_
  rw [length_dirBytes, List.length_take_of_le hk]

variable {de : Dirent}

theorem Dirent.inumOf_bytes (h : de.inum < 65536) (rest : List UInt8) :
    inumOf (de.bytes ++ rest) = de.inum := by
  simp only [inumOf, Dirent.bytes, List.cons_append, List.headD_cons, List.tail_cons,
    UInt8.toNat_ofNat']
  omega

theorem Dirent.namecmp_bytes (h : validName de.name) (name : List UInt8) :
    namecmp name (nameOf de.bytes) = 0 ↔ cstr DIRSIZ name = de.name := by
  have hname : nameOf de.bytes = strncpy DIRSIZ de.name := rfl
  rw [namecmp, strncmp_eq_zero, hname, cstr_strncpy, h.cstr_eq]

theorem readData_dirBytes {ents : List Dirent} {k : Nat} (h : ents[k]? = some de) :
    readData (dirBytes ents) (DIRENTSIZE * k) DIRENTSIZE = some de.bytes := by
  obtain ⟨hk, rfl⟩ := List.getElem?_eq_some_iff.mp h
  rw [readData, length_dirBytes, if_neg (by have := Nat.mul_le_mul_left DIRENTSIZE hk.le; omega),
    drop_dirBytes, List.drop_eq_getElem_cons hk]
  have hcons : dirBytes (ents[k] :: ents.drop (k + 1)) =
      ents[k].bytes ++ dirBytes (ents.drop (k + 1)) := List.flatMap_cons ..
  rw [hcons, List.take_left' ents[k].length_bytes]

theorem scan_dirBytes (e : DirPanic) (ents : List Dirent) (stop : List UInt8 → Bool) {fuel k : Nat}
    (h : ents.length ≤ k + fuel) :
    scan e (dirBytes ents) stop fuel (DIRENTSIZE * k) =
      .ok (DIRENTSIZE * (k + (ents.drop k).findIdx fun de => stop de.bytes)) := by
  induction fuel generalizing k with
  | zero => simp [scan, List.drop_eq_nil_of_le (by omega : ents.length ≤ k)]
  | succ fuel ih =>
    rw [scan, length_dirBytes]
    by_cases hk : k < ents.length
    · rw [if_pos (Nat.mul_lt_mul_of_pos_left hk (by decide)),
        readData_dirBytes (List.getElem?_eq_getElem hk), List.drop_eq_getElem_cons hk,
        List.findIdx_cons]
      simp only [ents[k].length_bytes, ne_eq, not_true_eq_false, if_false]
      cases hstop : stop ents[k].bytes with
      | true => rfl
      | false =>
        rw [if_neg (by simp), ← Nat.mul_succ, ih (by omega)]
        simp [Nat.add_assoc, Nat.add_comm]
    · rw [if_neg (by have := Nat.mul_le_mul_left DIRENTSIZE (Nat.le_of_not_lt hk); omega),
        List.drop_eq_nil_of_le (Nat.le_of_not_lt hk)]
      simp

theorem dirSearch_eq (name : Name) (ents : List Dirent) (off : Nat) :
    dirSearch name ents off =
      (ents[ents.findIdx fun de => de.inum != 0 && name == de.name]?).map fun de =>
        (de.inum, off + ents.findIdx fun de => de.inum != 0 && name == de.name) := by
  induction ents generalizing off with
  | nil => rfl
  | cons de ents ih =>
    rw [dirSearch, List.findIdx_cons]
    cases hde : de.inum != 0 && name == de.name with
    | true =>
      simp only [Bool.and_eq_true, bne_iff_ne, beq_iff_eq] at hde
      rw [if_neg hde.1, if_pos hde.2]
      rfl
    | false =>
      have hnext : (if de.inum = 0 then dirSearch name ents (off + 1)
          else if name = de.name then some (de.inum, off)
          else dirSearch name ents (off + 1)) = dirSearch name ents (off + 1) := by
        split_ifs with hinum hname
        · rfl
        · simp [hinum, hname] at hde
        · rfl
      rw [hnext, ih]
      simp only [cond_false, List.getElem?_cons_succ, Nat.add_right_comm off 1, Nat.add_assoc]

theorem findIdx_congr {α : Type} {p q : α → Bool} {l : List α} (h : ∀ a ∈ l, p a = q a) :
    l.findIdx p = l.findIdx q := by
  induction l with
  | nil => rfl
  | cons a l ih =>
    rw [List.findIdx_cons, List.findIdx_cons, h a List.mem_cons_self,
      ih fun b hb => h b (List.mem_cons_of_mem _ hb)]

theorem scan_from (e : DirPanic) (ents : List Dirent) (stop : List UInt8 → Bool) (k : Nat) :
    scan e (dirBytes ents) stop (dirBytes ents).length (DIRENTSIZE * k) =
      .ok (DIRENTSIZE * (k + (ents.drop k).findIdx fun de => stop de.bytes)) := by
  refine scan_dirBytes e ents stop ?_
  rw [length_dirBytes]
  simp only [DIRENTSIZE]
  omega

section Entries

variable {ents : List Dirent} (hinum : ∀ de ∈ ents, de.inum < 65536)

include hinum

theorem inumOf_bytes_mem (h : de ∈ ents) : inumOf de.bytes = de.inum := by
  have hde := Dirent.inumOf_bytes (hinum de h) []
  rwa [List.append_nil] at hde

theorem dirlookupBytes_eq (hname : ∀ de ∈ ents, de.inum ≠ 0 → validName de.name)
    (name : List UInt8) :
    dirlookupBytes (dirBytes ents) name =
      .ok ((dirSearch (cstr DIRSIZ name) ents 0).map fun r => (r.1, DIRENTSIZE * r.2)) := by
  have hstop : ents.findIdx (fun de => inumOf de.bytes != 0 && namecmp name (nameOf de.bytes) == 0) =
      ents.findIdx fun de => de.inum != 0 && cstr DIRSIZ name == de.name := by
    refine findIdx_congr fun de hde => ?_
    rw [inumOf_bytes_mem hinum hde]
    by_cases hzero : de.inum = 0
    · simp [hzero]
    · have hcmp := de.namecmp_bytes (hname de hde hzero) name
      rw [Bool.eq_iff_iff]
      simp only [Bool.and_eq_true, beq_iff_eq, hcmp]
  have hscan := scan_from .dirlookupRead ents
    (fun de => inumOf de != 0 && namecmp name (nameOf de) == 0) 0
  simp only [Nat.mul_zero, List.drop_zero, Nat.zero_add, hstop] at hscan
  rw [dirlookupBytes, hscan, dirSearch_eq]
  simp only [bind, Except.bind, pure, Except.pure, length_dirBytes, drop_dirBytes, Nat.zero_add]
  generalize hk : (ents.findIdx fun de => de.inum != 0 && cstr DIRSIZ name == de.name) = k
  by_cases hlt : k < ents.length
  · have hcons : dirBytes (ents[k] :: ents.drop (k + 1)) =
        ents[k].bytes ++ dirBytes (ents.drop (k + 1)) := List.flatMap_cons ..
    rw [if_pos (Nat.mul_lt_mul_of_pos_left hlt (by decide)), List.getElem?_eq_getElem hlt,
      List.drop_eq_getElem_cons hlt, hcons, Dirent.inumOf_bytes (hinum _ (List.getElem_mem hlt))]
    rfl
  · rw [if_neg fun h => hlt (Nat.lt_of_mul_lt_mul_left h),
      List.getElem?_eq_none (Nat.le_of_not_lt hlt)]
    rfl

theorem emptySlotBytes_eq : emptySlotBytes (dirBytes ents) = .ok (DIRENTSIZE * emptySlot ents) := by
  have hscan := scan_from .dirlinkRead ents (fun de => inumOf de == 0) 0
  have hstop : ents.findIdx (fun de => inumOf de.bytes == 0) = emptySlot ents :=
    findIdx_congr fun de hde => by rw [inumOf_bytes_mem hinum hde]
  simp only [Nat.mul_zero, List.drop_zero, Nat.zero_add, hstop] at hscan
  exact hscan

theorem isdiremptyBytes_eq : isdiremptyBytes (dirBytes ents) = .ok (isdirempty ents) := by
  have hscan := scan_from .isdiremptyReadi ents (fun de => inumOf de != 0) 2
  have hstop : (ents.drop 2).findIdx (fun de => inumOf de.bytes != 0) =
      (ents.drop 2).findIdx fun de => de.inum != 0 :=
    findIdx_congr fun de hde => by rw [inumOf_bytes_mem hinum (List.mem_of_mem_drop hde)]
  rw [hstop] at hscan
  rw [isdiremptyBytes, Nat.mul_comm 2, hscan]
  simp only [bind, Except.bind, pure, Except.pure, length_dirBytes, isdirempty, Except.ok.injEq]
  rw [Bool.eq_iff_iff, decide_eq_true_eq, List.all_eq_true]
  constructor
  · intro hle de hde
    have hlen : (ents.drop 2).length ≤ (ents.drop 2).findIdx fun de => de.inum != 0 := by
      have hle := Nat.le_of_mul_le_mul_left hle (by decide)
      simp only [List.length_drop]
      omega
    have hall := List.findIdx_eq_length.mp (Nat.le_antisymm List.findIdx_le_length hlen) de hde
    simpa using hall
  · intro hall
    have hlen : (ents.drop 2).findIdx (fun de => de.inum != 0) = (ents.drop 2).length :=
      List.findIdx_eq_length.mpr fun de hde => by simpa using hall de hde
    refine Nat.mul_le_mul_left _ ?_
    rw [hlen, List.length_drop]
    omega

end Entries

theorem writeData_dirBytes (ents : List Dirent) (slot : Nat) (de : Dirent) :
    writeData (dirBytes ents) (DIRENTSIZE * slot) de.bytes =
      if slot > ents.length ∨ (slot + 1) * DIRENTSIZE > MAXFILE * BSIZE then none
      else some (dirBytes (putSlot ents slot de)) := by
  have hbounds : (DIRENTSIZE * slot > (dirBytes ents).length ∨
      DIRENTSIZE * slot + de.bytes.length > MAXFILE * BSIZE) ↔
      (slot > ents.length ∨ (slot + 1) * DIRENTSIZE > MAXFILE * BSIZE) := by
    rw [length_dirBytes, de.length_bytes]
    simp only [DIRENTSIZE]
    omega
  rw [writeData, if_congr hbounds rfl rfl]
  split_ifs with hout
  · rfl
  have hslot : slot ≤ ents.length := by omega
  have hsingle : dirBytes [de] = de.bytes := by simp [dirBytes]
  have hput : putSlot ents slot de = ents.take slot ++ [de] ++ ents.drop (slot + 1) := by
    rw [putSlot]
    split_ifs with hlt
    · rw [List.set_eq_take_append_cons_drop, if_pos hlt]
      simp
    · obtain rfl : slot = ents.length := by omega
      simp
  rw [hput, dirBytes_append, dirBytes_append, hsingle, take_dirBytes hslot, de.length_bytes,
    ← Nat.mul_succ, drop_dirBytes]

end Xv6
