import Xv6.Dir.Base

/-!
# Well-formed images

The file system as `mkfs` leaves it and as the first calls find it: every directory but the root has
one entry, in the directory that its `..` names, link counts are the numbers of entries, and every
process works in the root.
-/

namespace Xv6

variable {P : Type}

/-- Ordinary entries that name the inode. -/
def Fs.inCount (N : Nat) (s : Fs P) (i : Nat) : Nat :=
  ∑ d ∈ Finset.range N, (s.inode d).ents.countP fun e => e.ordinary ∧ e.inum = i

/-- Entries other than `.` that name the inode. -/
def Fs.linkCount (N : Nat) (s : Fs P) (i : Nat) : Nat :=
  ∑ d ∈ Finset.range N, (s.inode d).ents.countP fun e => e.inum = i ∧ e.name ≠ dot

/-- Ordinary entries of a directory that name directories. -/
def Fs.subCount (s : Fs P) (i : Nat) : Nat :=
  (s.inode i).ents.countP fun e => e.ordinary ∧ (s.inode e.inum).type = .dir

/-- A directory with `.` and `..` in its first two slots and only ordinary entries after them. -/
def Fs.shaped (s : Fs P) (d parent : Nat) : Prop :=
  ∃ rest, (s.inode d).ents = ⟨d, dot⟩ :: ⟨parent, dotdot⟩ :: rest ∧
    ∀ e ∈ rest, e.inum = 0 ∨ e.ordinary

/-- Directories form a tree below the root. -/
structure Fs.Tree (N : Nat) (s : Fs P) : Prop where
  range : ∀ {i}, (s.inode i).type ≠ .free → 0 < i ∧ i < N
  leaf : ∀ {i}, (s.inode i).type ≠ .dir → (s.inode i).ents = []
  root : (s.inode ROOTINO).type = .dir
  named : ∀ {d i}, (s.view d).names i → (s.inode i).type ≠ .free
  dots : ∀ {d}, (s.inode d).type = .dir → ∃ parent, s.shaped d parent ∧
    if d = ROOTINO then parent = ROOTINO else (s.view parent).names d
  entered : ∀ {d}, (s.inode d).type = .dir → s.inCount N d = if d = ROOTINO then 0 else 1

structure Fs.WellFormed (N : Nat) (s : Fs P) : Prop extends s.Tree N where
  /-- Inode numbers fit in a dirent. -/
  size : N ≤ 65536
  links : ∀ {i}, (s.inode i).type ≠ .free →
    (s.inode i).nlink = s.linkCount N i ∧ 0 < (s.inode i).nlink ∧ (s.inode i).nlink ≤ 32767
  acyclic : Acyclic fun d i => (s.view d).names i

/-- The image before the first call: nothing is open and every process is in the root. -/
structure Fs.Boot [Fintype P] (N : Nat) (s : Fs P) : Prop extends s.WellFormed N where
  cwd : ∀ p, s.cwd p = some ROOTINO
  ofile : ∀ p fd, s.ofile p fd = none
  file : ∀ f, (s.file f).ref = 0 ∧ (s.file f).type = .none
  unread : ∀ i, (s.inode i).valid = false ∧ (s.inode i).lock = none
  ref : ∀ i, (s.inode i).ref = if i = ROOTINO then Fintype.card P else 0

variable {s : Fs P}

theorem Fs.shaped.entry {d parent : Nat} (h : s.shaped d parent) {e : Dirent}
    (he : e ∈ (s.inode d).ents) (hne : e.inum ≠ 0) :
    e = ⟨d, dot⟩ ∨ e = ⟨parent, dotdot⟩ ∨ e.ordinary := by
  obtain ⟨rest, hents, hrest⟩ := h
  rw [hents, List.mem_cons, List.mem_cons] at he
  rcases he with rfl | rfl | he
  · exact .inl rfl
  · exact .inr (.inl rfl)
  · exact .inr (.inr ((hrest e he).resolve_left hne))

theorem Fs.inCount_eq_zero {N : Nat} {i : Nat} :
    s.inCount N i = 0 ↔ ∀ d, d < N → ¬ (s.view d).names i := by
  simp only [Fs.inCount, Finset.sum_eq_zero_iff, Finset.mem_range, List.countP_eq_zero,
    decide_eq_true_eq, View.names, Fs.view, not_exists, not_and]

theorem Fs.inCount_pos {N : Nat} {d i : Nat} (hd : d < N) (h : (s.view d).names i) : 0 < s.inCount N i := by
  by_contra hzero
  exact Fs.inCount_eq_zero.mp (Nat.eq_zero_of_not_pos hzero) d hd h

/-- The directory that `..` names. -/
def Fs.parent (s : Fs P) (d : Nat) : Nat := (((s.inode d).ents[1]?).map Dirent.inum).getD 0

namespace Fs.Tree

variable {N : Nat} {s : Fs P} (h : s.Tree N)

include h

theorem shaped_parent {d : Nat} (hd : (s.inode d).type = .dir) : s.shaped d (s.parent d) := by
  obtain ⟨parent, ⟨rest, hents, hrest⟩, _⟩ := h.dots hd
  refine ⟨rest, ?_, hrest⟩
  simp [Fs.parent, hents]

theorem names_parent {d : Nat} (hd : (s.inode d).type = .dir) :
    if d = ROOTINO then s.parent d = ROOTINO else (s.view (s.parent d)).names d := by
  obtain ⟨parent, ⟨rest, hents, _⟩, hparent⟩ := h.dots hd
  have heq : s.parent d = parent := by simp [Fs.parent, hents]
  rwa [heq]

theorem names_dir {d i : Nat} (hd : (s.view d).names i) : (s.inode d).type = .dir := by
  by_contra hdir
  obtain ⟨e, he, _⟩ := hd
  simp [Fs.view, h.leaf hdir] at he

theorem entry_alloc {d : Nat} {e : Dirent} (he : e ∈ (s.inode d).ents) (hne : e.inum ≠ 0) :
    (s.inode e.inum).type ≠ .free := by
  have hdir : (s.inode d).type = .dir := by
    by_contra hdir
    simp [h.leaf hdir] at he
  obtain ⟨parent, hshape, hparent⟩ := h.dots hdir
  rcases hshape.entry he hne with rfl | rfl | hord
  · simp [hdir]
  · split at hparent
    · simp [hparent, h.root]
    · simp [h.names_dir hparent]
  · exact h.named ⟨e, he, hord, rfl⟩

theorem countP_links {i : Nat} (hi : i ≠ 0) (d : Nat) :
    (s.inode d).ents.countP (fun e => e.inum = i ∧ e.name ≠ dot) =
      (s.inode d).ents.countP (fun e => e.ordinary ∧ e.inum = i) +
        if (s.inode d).type = .dir ∧ s.parent d = i then 1 else 0 := by
  by_cases hd : (s.inode d).type = .dir
  · obtain ⟨rest, hents, hrest⟩ := h.shaped_parent hd
    have hname : dotdot ≠ dot := by decide
    have hcount : rest.countP (fun e => e.inum = i ∧ e.name ≠ dot) =
        rest.countP fun e => e.ordinary ∧ e.inum = i := by
      refine List.countP_congr fun e he => ?_
      simp only [decide_eq_true_eq]
      rcases hrest e he with hzero | hord
      · simp [Dirent.ordinary, hzero, hi.symm]
      · simp [hord, hord.2.1]
    have hdot : ¬ (⟨d, dot⟩ : Dirent).ordinary := fun hord => hord.2.1 rfl
    have hdotdot : ¬ (⟨s.parent d, dotdot⟩ : Dirent).ordinary := fun hord => hord.2.2 rfl
    rw [hents, List.countP_cons, List.countP_cons, List.countP_cons, List.countP_cons, hcount]
    simp [hdot, hdotdot, hd, hname]
  · simp [h.leaf hd, hd]

theorem countP_child {c : Nat} (hc : (s.inode c).type = .dir) {d : Nat} (hd : d < N) :
    (s.inode d).ents.countP (fun e => e.ordinary ∧ e.inum = c) =
      if c ≠ ROOTINO ∧ s.parent c = d then 1 else 0 := by
  have hin := h.entered hc
  have hparent := h.names_parent hc
  by_cases hroot : c = ROOTINO
  · rw [if_pos hroot, Fs.inCount, Finset.sum_eq_zero_iff] at hin
    rw [hin d (Finset.mem_range.mpr hd)]
    simp [hroot]
  · rw [if_neg hroot] at hin hparent
    have hpN : s.parent c < N := (h.range (i := s.parent c) (by simp [h.names_dir hparent])).2
    have hpos : 0 < (s.inode (s.parent c)).ents.countP fun e => e.ordinary ∧ e.inum = c := by
      rw [List.countP_pos_iff]
      obtain ⟨e, he, hord, heq⟩ := hparent
      exact ⟨e, he, by simp [hord, heq]⟩
    -- The entries for the directory add up to one, and one of them is in the parent.
    have hsum := Finset.add_sum_erase (Finset.range N)
      (fun d => (s.inode d).ents.countP fun e => e.ordinary ∧ e.inum = c)
      (Finset.mem_range.mpr hpN)
    rw [← Fs.inCount, hin] at hsum
    by_cases hpd : s.parent c = d
    · subst hpd
      simp only [hroot, ne_eq, not_false_eq_true, and_self, if_true]
      omega
    · rw [if_neg (fun hand => hpd hand.2)]
      have hrest : ∑ d ∈ (Finset.range N).erase (s.parent c),
          (s.inode d).ents.countP (fun e => e.ordinary ∧ e.inum = c) = 0 := by omega
      exact Finset.sum_eq_zero_iff.mp hrest d
        (Finset.mem_erase.mpr ⟨Ne.symm hpd, Finset.mem_range.mpr hd⟩)

/-- The links to an inode are the ordinary entries for it and the `..` of its subdirectories, with
that of the root for the root itself. -/
theorem linkCount_eq {i : Nat} (hi : (s.inode i).type ≠ .free) :
    s.linkCount N i = s.inCount N i + s.subCount i + if i = ROOTINO then 1 else 0 := by
  obtain ⟨hpos, hN⟩ := h.range hi
  obtain ⟨_, hrootN⟩ := h.range (i := ROOTINO) (by simp [h.root])
  have hsub : s.subCount i =
      ∑ c ∈ Finset.range N,
        if (s.inode c).type = .dir then if c ≠ ROOTINO ∧ s.parent c = i then 1 else 0 else 0 := by
    rw [Fs.subCount, countP_eq_sum (Finset.range N) Dirent.inum Dirent.ordinary
      (fun c => (s.inode c).type = .dir)]
    · refine Finset.sum_congr rfl fun c _ => ?_
      by_cases hc : (s.inode c).type = .dir
      · rw [if_pos hc, if_pos hc, h.countP_child hc hN]
      · rw [if_neg hc, if_neg hc]
    · intro e he hord
      exact Finset.mem_range.mpr (h.range (h.named ⟨e, he, hord, rfl⟩)).2
  have hroot : s.parent ROOTINO = ROOTINO := by simpa using h.names_parent h.root
  have hparents : (∑ d ∈ Finset.range N, if (s.inode d).type = .dir ∧ s.parent d = i then 1 else 0) =
      s.subCount i + if i = ROOTINO then 1 else 0 := by
    have hbal := sum_balance_on
      (f := fun c => if (s.inode c).type = .dir then
        if c ≠ ROOTINO ∧ s.parent c = i then 1 else 0 else 0)
      (g := fun d => if (s.inode d).type = .dir ∧ s.parent d = i then 1 else 0) (Finset.range N)
      (Finset.mem_range.mpr hrootN) (fun c hc => by simp [hc, ite_and])
    simp only [h.root, hroot, ne_eq, not_true_eq_false, false_and, if_true, if_false, true_and,
      Nat.add_zero, @eq_comm _ ROOTINO i] at hbal
    rw [hbal, hsub]
  rw [Fs.linkCount, Finset.sum_congr rfl fun d _ => h.countP_links hpos.ne' d,
    Finset.sum_add_distrib, hparents, Fs.inCount, Nat.add_assoc]

end Fs.Tree

theorem Fs.Boot.base [Fintype P] {N : Nat} (h : s.Boot N) :
    BaseInv N s fun _ => Ledger.idle where
  locks := ⟨fun i p => by simp [(h.unread i).2, Ledger.idle], by simp [Ledger.idle],
    by simp [Ledger.idle], by simp [Ledger.idle]⟩
  nodes := ⟨fun {i} hv => by simp [(h.unread i).1] at hv, h.range, h.leaf⟩
  counts := by
    refine ⟨fun _ => .idle, ⟨fun i => ?_, fun f => ?_, fun {f} _ => (h.file f).2, fun p => .idle _ _,
      fun hf => absurd hf (Multiset.notMem_zero _)⟩, fun _ => ⟨rfl, rfl, rfl, rfl, rfl⟩⟩
    · simp [h.ref, Fs.fileRefs, h.file, Hand.countRef, Hand.idle, h.cwd, eq_comm]
    · simp [Hand.owes, Hand.share, Hand.idle, ofileCount, h.ofile, (h.file f).1]
  own _ := ⟨by simp [Ledger.idle], by simp [Ledger.idle], by simp [Ledger.idle],
    by simp [Ledger.idle]⟩
  order := by
    refine h.acyclic.mono fun d i hdi => ?_
    rcases hdi with hnames | ⟨_, _, hfresh, _⟩
    · exact hnames
    · simp [Ledger.idle] at hfresh

/-- An image whose root is empty. -/
def emptyImage (P : Type) [Fintype P] (ninodes : Nat) : Fs P where
  ninodes
  inode i :=
    if i = ROOTINO then
      ⟨.dir, 0, 0, 1, [⟨ROOTINO, dot⟩, ⟨ROOTINO, dotdot⟩], Fintype.card P, false, none⟩
    else ⟨.free, 0, 0, 0, [], 0, false, none⟩
  file _ := ⟨0, .none, 0, false, false⟩
  ofile _ _ := none
  cwd _ := some ROOTINO

theorem emptyImage_boot [Fintype P] {N : Nat} (hN : 1 < N) (hmax : N ≤ 65536) :
    (emptyImage P N).Boot N := by
  have htype (i : Nat) : ((emptyImage P N).inode i).type = if i = ROOTINO then .dir else .free := by
    simp only [emptyImage]
    split <;> rfl
  have hents (i : Nat) : ((emptyImage P N).inode i).ents =
      if i = ROOTINO then [⟨ROOTINO, dot⟩, ⟨ROOTINO, dotdot⟩] else [] := by
    simp only [emptyImage]
    split <;> rfl
  have hroot {i : Nat} (hi : ((emptyImage P N).inode i).type ≠ .free) : i = ROOTINO := by
    by_contra hne
    simp [htype, hne] at hi
  have hdir {d : Nat} (hd : ((emptyImage P N).inode d).type = .dir) : d = ROOTINO :=
    hroot (by simp [hd])
  have hnames (d i : Nat) : ¬ ((emptyImage P N).view d).names i := by
    rintro ⟨e, he, hord, _⟩
    simp only [Fs.view, hents] at he
    split at he
    · simp only [List.mem_cons, List.not_mem_nil, or_false] at he
      rcases he with rfl | rfl
      · exact hord.2.1 rfl
      · exact hord.2.2 rfl
    · simp at he
  have hmem : ROOTINO ∈ Finset.range N := Finset.mem_range.mpr hN
  refine ⟨⟨⟨fun {i} hi => ?_, fun {i} hi => ?_, rfl, fun h => absurd h (hnames _ _), fun {d} hd => ?_,
    fun {d} hd => ?_⟩, hmax, fun {i} hi => ?_, ?_⟩, fun _ => rfl, fun _ _ => rfl, fun _ => ⟨rfl, rfl⟩, fun i => ?_, fun i => ?_⟩
  · rw [hroot hi]
    exact ⟨by decide, hN⟩
  · have hne : i ≠ ROOTINO := by
      rintro rfl
      exact hi rfl
    simp [hents, hne]
  · rw [hdir hd]
    exact ⟨ROOTINO, ⟨[], by simp [hents], by simp⟩, by simp⟩
  · rw [hdir hd, if_pos rfl]
    exact Fs.inCount_eq_zero.mpr fun d _ => hnames d _
  · rw [hroot hi, Fs.linkCount, Finset.sum_eq_single_of_mem ROOTINO hmem]
    · have hlink : ((emptyImage P N).inode ROOTINO).nlink = 1 := rfl
      rw [hents, if_pos rfl, hlink]
      exact ⟨rfl, by decide, by decide⟩
    · intro d _ hd
      simp [hents, hd]
  · refine fun v hv => ?_
    obtain ⟨b, hb, _⟩ := Relation.TransGen.head'_iff.mp hv
    exact hnames v b hb
  · simp only [emptyImage]
    split <;> exact ⟨rfl, rfl⟩
  · simp only [emptyImage]
    split <;> rfl

end Xv6
