import Xv6.Dir.Links
import Xv6.Dir.Notes

/-!
# Well-formed directories

In every prudent run the directories that no call has locked are lists of whole dirents that begin
with `.` and `..` and whose names are path elements, no two of them equal, and no directory is open
for writing.
-/

namespace Xv6

open Function (update_of_ne update_self)

variable {P : Type}

/-- The names of a directory's entries in use. -/
def liveNames (ents : List Dirent) : List Name :=
  (ents.filter fun e => e.inum ≠ 0).map Dirent.name

variable {ents : List Dirent}

theorem mem_liveNames {name : Name} :
    name ∈ liveNames ents ↔ ∃ e ∈ ents, e.inum ≠ 0 ∧ e.name = name := by
  simp [liveNames, and_assoc]

theorem liveNames_append (a b : List Dirent) : liveNames (a ++ b) = liveNames a ++ liveNames b := by
  simp [liveNames]

theorem liveNames_cons_dead {e : Dirent} (h : e.inum = 0) (ents : List Dirent) :
    liveNames (e :: ents) = liveNames ents := by
  simp [liveNames, h]

theorem liveNames_cons_live {e : Dirent} (h : e.inum ≠ 0) (ents : List Dirent) :
    liveNames (e :: ents) = e.name :: liveNames ents := by
  simp [liveNames, h]

theorem liveNames_add {de : Dirent} (hde : de.inum ≠ 0) (h : (liveNames ents).Nodup)
    (hnew : dirSearch de.name ents 0 = none) :
    (liveNames (putSlot ents (emptySlot ents) de)).Nodup := by
  have hout : de.name ∉ liveNames ents := by
    intro hmem
    obtain ⟨e, he, hne, hname⟩ := mem_liveNames.mp hmem
    exact dirSearch_eq_none.mp hnew e he hne hname
  rcases putSlot_emptySlot ents de with ⟨a, x, b, hents, hx, hput⟩ | hput
  · rw [hents, liveNames_append, liveNames_cons_dead hx] at h hout
    rw [hput, liveNames_append, liveNames_cons_live hde, List.nodup_middle, List.nodup_cons]
    exact ⟨hout, h⟩
  · have hlast : liveNames [de] = [de.name] := liveNames_cons_live hde []
    rw [hput, liveNames_append, hlast, List.nodup_middle, List.append_nil, List.nodup_cons]
    exact ⟨hout, h⟩

theorem liveNames_clear {slot : Nat} {de : Dirent} (hde : de.inum = 0)
    (h : (liveNames ents).Nodup) : (liveNames (putSlot ents slot de)).Nodup := by
  unfold putSlot
  split_ifs with hlt
  · rw [List.set_eq_take_append_cons_drop, if_pos hlt, liveNames_append, liveNames_cons_dead hde,
      ← liveNames_append]
    refine List.Nodup.sublist (List.Sublist.map _ (List.Sublist.filter _ ?_)) h
    conv_rhs => rw [← List.take_append_drop slot ents]
    exact List.Sublist.append_left (List.drop_sublist_drop_left _ (Nat.le_succ slot)) _
  · rw [liveNames_append, liveNames_cons_dead hde]
    simpa [liveNames] using h

/-- Entries that fit in a dirent under distinct names. -/
structure Named (ents : List Dirent) : Prop where
  inum : ∀ e ∈ ents, e.inum < 65536
  valid : ∀ e ∈ ents, e.inum ≠ 0 → validName e.name
  distinct : (liveNames ents).Nodup

theorem Named.nil : Named [] := ⟨by simp, by simp, List.nodup_nil⟩

/-- The note that an action leaves. -/
def Note.after (m : Note) : (a : FsAct) → a.Res → Note
  | .ilock _, _ =>
    match m.claimed with
    | none => m
    | some x => ⟨x :: m.known, none⟩
  | .read i, r => m.see i r.type
  | .iputTest i, _ | .iputFree i, _ | .setFile _ i _ _, _ => m.forget i
  | .setCwd i, _ =>
    match i with
    | none => m
    | some j => m.forget j
  | .claim i type, (r : Bool) => if r then { m with claimed := some (i, type) } else m
  | _, _ => m

/-- The inode whose reference an action may give up. -/
def FsAct.drops : FsAct → Option Nat
  | .iputTest i | .iputFree i | .setFile _ i _ _ => some i
  | .setCwd i => i
  | _ => none

/-- What ties the notes of a call to its ledger. -/
structure NoteInv (s : Fs P) (l : Ledger) (m : Note) : Prop where
  known : ∀ {i t}, (i, t) ∈ m.known → i ∈ l.refs ∧ (s.inode i).type = t
  claimed : ∀ {i t}, m.claimed = some (i, t) →
    l.fresh = some i ∧ l.ftype = t ∧ (s.inode i).ents = []
  locked : ∀ {i}, l.fresh = some i → (∃ v, (i, v) ∈ l.held) ∨ ∃ t, m.claimed = some (i, t)

/-- No directory is open for writing. -/
def Fs.PlainFiles (s : Fs P) : Prop :=
  ∀ f, (s.file f).type = .inode → (s.file f).writable = true →
    (s.inode (s.file f).ip).type ≠ .dir

/-- What an action does to the types and entries of inodes. -/
inductive ViewStep (s s' : Fs P) : FsAct → Prop where
  | same {a : FsAct} (h : ∀ j, s'.view j = s.view j) : ViewStep s s' a
  | freed {i : Nat} (h : ∀ j, j ≠ i → s'.view j = s.view j) (hi : s'.view i = ⟨.free, []⟩) :
      ViewStep s s' (.iputFree i)
  | claimed {i : Nat} {type : InodeType} (hfree : (s.inode i).type = .free)
      (h : ∀ j, j ≠ i → s'.view j = s.view j) (hi : s'.view i = ⟨type, []⟩) :
      ViewStep s s' (.claim i type)
  | wrote {d slot : Nat} {de : Dirent} (h : ∀ j, j ≠ d → s'.view j = s.view j)
      (hd : s'.view d = ⟨(s.inode d).type, putSlot (s.inode d).ents slot de⟩) :
      ViewStep s s' (.writeDirent d slot de)

variable {i : Nat} {s : Fs P}

theorem ents_of_view {v : View} (h : s.view i = v) : (s.inode i).ents = v.ents :=
  congrArg View.ents h

theorem view_setInode_ne (s : Fs P) {i j : Nat} (n : Inode P) (h : j ≠ i) :
    (s.setInode i n).view j = s.view j := by
  rw [Fs.view, Fs.inode_setInode_ne s n h, Fs.view]

theorem view_setInode_self (s : Fs P) (i : Nat) (n : Inode P) :
    (s.setInode i n).view i = ⟨n.type, n.ents⟩ := by
  rw [Fs.view, Fs.inode_setInode_self]

variable {a : FsAct}

theorem ViewStep.setInode {n : Inode P} (htype : n.type = (s.inode i).type)
    (hents : n.ents = (s.inode i).ents) :
    ViewStep s (s.setInode i n) a := by
  refine .same fun j => ?_
  by_cases hj : j = i
  · rw [hj, view_setInode_self, htype, hents]
    rfl
  · exact view_setInode_ne s n hj

variable {r : a.Res}

theorem exec_viewStep [DecidableEq P] {s s' : Fs P} {p : P}
    (hexec : s.exec p a = .next (r, s')) : ViewStep s s' a := by
  cases Fs.exec_step hexec with
  | iget | idupCwd | ilock | iunlock | iputDoom | iputDrop | incLink | decLink | initNode =>
    exact .setInode rfl rfl
  | iputFree i => exact .freed (fun j hj => view_setInode_ne s _ hj) (view_setInode_self s i _)
  | writeDirent d slot de =>
    exact .wrote (fun j hj => view_setInode_ne s _ hj) (view_setInode_self s d _)
  | @claim i type hfree =>
    exact .claimed hfree (fun j hj => view_setInode_ne s _ hj) (view_setInode_self s i _)
  | _ => exact .same fun _ => rfl

theorem exec_files [DecidableEq P] {s s' : Fs P} {p : P} (hexec : s.exec p a = .next (r, s'))
    {f : FileId} (htype : (s'.file f).type = .inode) (hwr : (s'.file f).writable = true) :
    ((s.file f).type = .inode ∧ (s.file f).writable = true ∧ (s'.file f).ip = (s.file f).ip) ∨
      ∃ rd, a = .setFile f (s'.file f).ip rd true := by
  have hsame (h : s'.file = s.file) : (s.file f).type = .inode ∧ (s.file f).writable = true ∧
      (s'.file f).ip = (s.file f).ip := by
    rw [h] at htype hwr ⊢
    exact ⟨htype, hwr, rfl⟩
  have hother {g : FileId} {ff : File} (hs' : s' = s.setFile g ff) (hg : f ≠ g) :
      (s.file f).type = .inode ∧ (s.file f).writable = true ∧ (s'.file f).ip = (s.file f).ip := by
    have hf : s'.file f = s.file f := hs' ▸ update_of_ne hg ..
    rw [hf] at htype hwr ⊢
    exact ⟨htype, hwr, rfl⟩
  cases Fs.exec_step hexec with
  | @filealloc g | @closeShared g =>
    by_cases hg : f = g
    · subst hg
      left
      simpa [Fs.setFile] using And.intro htype hwr
    · exact .inl (hother rfl hg)
  | @closeInode g | @closeOther g =>
    by_cases hg : f = g
    · simp [Fs.setFile, hg] at htype
    · exact .inl (hother rfl hg)
  | setFile g i rd wr =>
    by_cases hg : f = g
    · subst hg
      simp only [Fs.setFile, update_self] at hwr ⊢
      exact .inr ⟨rd, by rw [hwr]⟩
    · exact .inl (hother rfl hg)
  | _ => exact .inl (hsame rfl)

section Step

variable [Fintype P] [DecidableEq P] {N : Nat} {s s' : Fs P} {ls : P → Ledger} {p : P} {m : Note}

omit [DecidableEq P] in
theorem type_kept (ht : TreeInv N s ls) (hstep : ViewStep s s' a)
    (hi : Xv6.drops ls i < (s.inode i).ref) (hput : a ≠ .iputFree i) :
    (s'.inode i).type = (s.inode i).type := by
  have hview (h : s'.view i = s.view i) : (s'.inode i).type = (s.inode i).type :=
    congrArg View.type h
  cases hstep with
  | same h => exact hview (h i)
  | @freed j h hj =>
    refine hview (h i ?_)
    rintro rfl
    exact hput rfl
  | @claimed j type hfree h hj =>
    refine hview (h i ?_)
    rintro rfl
    exact ht.alloc hi hfree
  | @wrote d slot de h hd =>
    by_cases hid : i = d
    · subst hid
      exact congrArg View.type hd
    · exact hview (h i hid)

omit [Fintype P] [DecidableEq P] in
theorem empty_kept (hstep : ViewStep s s' a) (hi : (s.inode i).ents = [])
    (hwrite : ∀ slot de, a ≠ .writeDirent i slot de) : (s'.inode i).ents = [] := by
  have hview (h : s'.view i = s.view i) : (s'.inode i).ents = [] := (ents_of_view h).trans hi
  cases hstep with
  | same h => exact hview (h i)
  | @freed j h hj | @claimed j type hfree h hj =>
    by_cases hij : i = j
    · subst hij
      exact ents_of_view hj
    · exact hview (h i hij)
  | @wrote d slot de h hd =>
    refine hview (h i ?_)
    rintro rfl
    exact hwrite slot de rfl

omit [DecidableEq P] in
theorem named_step (hb : BaseInv N s ls) (hstep : ViewStep s s' a) (hpre : (fsRules N).pre a (ls p))
    (hnote : noteRules.pre a m) (h : ∀ d, Named (s.inode d).ents)
    (d : Nat) : Named (s'.inode d).ents := by
  have hview {j : Nat} (hj : s'.view j = s.view j) : Named (s'.inode j).ents := by
    rw [ents_of_view hj]
    exact h j
  cases hstep with
  | same hsame => exact hview (hsame d)
  | @freed i hsame hi | @claimed i type hfree hsame hi =>
    by_cases hd : d = i
    · subst hd
      rw [ents_of_view hi]
      exact .nil
    · exact hview (hsame d hd)
  | @wrote i slot de hsame hi =>
    by_cases hd : d = i
    · subst hd
      obtain ⟨_, hinum, hvalid⟩ := hnote
      obtain ⟨_, _, v, hv, _, hwrite⟩ := hpre
      obtain rfl := hb.locks.view hv
      rw [ents_of_view hi]
      refine ⟨fun e he => ?_, fun e he hne => ?_, ?_⟩
      · rcases mem_putSlot he with rfl | he
        · exact hinum
        · exact (h d).inum e he
      · rcases mem_putSlot he with rfl | he
        · exact hvalid hne
        · exact (h d).valid e he hne
      · rcases hwrite with ⟨hzero, _⟩ | ⟨hne, hnew, rfl, _⟩
        · exact liveNames_clear hzero (h d).distinct
        · exact liveNames_add hne (h d).distinct hnew
    · exact hview (hsame d hd)

theorem plainFiles_step (hb : BaseInv N s ls) (ht : TreeInv N s ls)
    (hpre : (fsRules N).pre a (ls p)) (hexec : s.exec p a = .next (r, s'))
    (hnote : noteRules.pre a m) (hm : NoteInv s (ls p) m) (h : s.PlainFiles) : s'.PlainFiles := by
  intro f htype hwr
  have hstep := exec_viewStep hexec
  rcases exec_files hexec htype hwr with ⟨htype, hwr, hip⟩ | ⟨rd, rfl⟩
  · have hpos := fileRefs_pos htype
    have hle := hb.refs_le p (s.file f).ip
    rw [hip, type_kept ht hstep (by omega)]
    · exact h f htype hwr
    · rintro rfl
      obtain ⟨_, hmem, hgone, _⟩ := hpre
      have hone := (ht.gone hgone).ref
      have hcount := Multiset.count_pos.mpr hmem
      omega
  · obtain ⟨t, ht', hdir⟩ := hnote.2 rfl
    obtain ⟨hmem, hknown⟩ := hm.known ht'
    rw [type_kept ht hstep (hb.ref_live hmem) nofun, hknown]
    exact hdir

theorem noteInv_other (hb : BaseInv N s ls) (ht : TreeInv N s ls) (hpre : (fsRules N).pre a (ls p))
    (hstep : ViewStep s s' a) {q : P} (hq : q ≠ p)
    (h : NoteInv s (ls q) m) : NoteInv s' (ls q) m where
  known := by
    intro i t hi
    obtain ⟨hmem, htype⟩ := h.known hi
    refine ⟨hmem, ?_⟩
    rw [type_kept ht hstep (hb.ref_live hmem), htype]
    rintro rfl
    exact hq (ht.gone_owner hb hpre.2.2.1 hmem)
  claimed := by
    intro i t hi
    obtain ⟨hfresh, hftype, hents⟩ := h.claimed hi
    refine ⟨hfresh, hftype, empty_kept hstep hents ?_⟩
    rintro slot de rfl
    obtain ⟨_, _, v, hv, _⟩ := hpre
    exact hq (ht.fresh_owner hb hfresh ((hb.own p).held hv)).symm
  locked := h.locked

omit [Fintype P] [DecidableEq P] in
theorem mem_refs_after {l : Ledger} (hi : i ∈ l.refs)
    (hdrop : a.drops ≠ some i) : i ∈ (s.after l a r).refs := by
  have hdropRef {j : Nat} (hj : some j ≠ some i) : i ∈ (l.dropRef j).refs :=
    (Multiset.mem_erase_of_ne fun h : i = j => hj (by rw [h])).mpr hi
  cases a with
  | iputTest j =>
    cases r with
    | false => exact hdropRef hdrop
    | true => exact hi
  | iputFree j | setFile f j rd wr => exact hdropRef hdrop
  | setCwd j =>
    cases j with
    | none => exact hi
    | some j => exact hdropRef hdrop
  | iget j | idupCwd | readCwd => exact Multiset.mem_cons_of_mem hi
  | incLink j =>
    simp only [Fs.after]
    split_ifs <;> exact hi
  | writeDirent d slot de =>
    cases r with
    | false => exact hi
    | true =>
      have hrefs := (l.wrote_keeps d (s.view d) slot de).2.1
      exact (hrefs ▸ hi : i ∈ (l.wrote d (s.view d) slot de).refs)
  | fileclose f =>
    cases r with
    | none => exact hi
    | some j => exact Multiset.mem_cons_of_mem hi
  | claim j type | filealloc | fdalloc f | takeFd fd => cases r <;> exact hi
  | _ => exact hi

theorem noteInv_self (hb : BaseInv N s ls) (ht : TreeInv N s ls) (hpre : (fsRules N).pre a (ls p))
    (hexec : s.exec p a = .next (r, s')) (hnote : noteRules.pre a m) (h : NoteInv s (ls p) m) :
    NoteInv s' (s.after (ls p) a r) (m.after a r) := by
  have hkeep {i : Nat} {t : InodeType} (hi : (i, t) ∈ m.known) (hdrop : a.drops ≠ some i) :
      i ∈ (s.after (ls p) a r).refs ∧ (s'.inode i).type = t := by
    obtain ⟨hmem, htype⟩ := h.known hi
    refine ⟨mem_refs_after hmem hdrop, ?_⟩
    rw [type_kept ht (exec_viewStep hexec) (hb.ref_live hmem), htype]
    rintro rfl
    exact absurd rfl hdrop
  have hsame (hknown : ∀ x ∈ (m.after a r).known, x ∈ m.known ∧ a.drops ≠ some x.1)
      (hclaimed : (m.after a r).claimed = m.claimed)
      (hfresh : (s.after (ls p) a r).fresh = (ls p).fresh)
      (hftype : (s.after (ls p) a r).ftype = (ls p).ftype)
      (hheld : (s.after (ls p) a r).held = (ls p).held) :
      NoteInv s' (s.after (ls p) a r) (m.after a r) := by
    refine ⟨fun hi => hkeep (hknown _ hi).1 (hknown _ hi).2, fun hi => ?_, fun hi => ?_⟩
    · obtain ⟨hold, htype, hents⟩ := h.claimed (hclaimed ▸ hi)
      refine ⟨hfresh.trans hold, hftype.trans htype, empty_kept (exec_viewStep hexec) hents ?_⟩
      rintro slot de rfl
      simp [hclaimed, hnote.1] at hi
    · rw [hheld, hclaimed]
      exact h.locked (hfresh ▸ hi)
  have hforget (j : Nat) (x : Nat × InodeType) (hx : x ∈ (m.forget j).known) :
      x ∈ m.known ∧ some j ≠ some x.1 := by
    obtain ⟨hmem, hne⟩ := List.mem_filter.mp hx
    exact ⟨hmem, fun hj => by simp [Option.some.inj hj] at hne⟩
  cases a with
  | iget i | idupCwd | readCwd | iputDrop i | decLink i | initNode i _ _ =>
    exact hsame (fun x hx => ⟨hx, by rintro ⟨⟩⟩) rfl rfl rfl rfl
  | filealloc | fdalloc f | fileclose f | takeFd fd =>
    cases r <;> exact hsame (fun x hx => ⟨hx, by rintro ⟨⟩⟩) rfl rfl rfl rfl
  | incLink i =>
    refine hsame (fun x hx => ⟨hx, by rintro ⟨⟩⟩) rfl ?_ ?_ ?_ <;> simp only [Fs.after] <;> split_ifs <;> rfl
  | iputTest i => cases r <;> exact hsame (hforget i) rfl rfl rfl rfl
  | iputFree i | setFile f i rd wr => exact hsame (hforget i) rfl rfl rfl rfl
  | setCwd i =>
    cases i with
    | none => exact hsame (fun x hx => ⟨hx, by rintro ⟨⟩⟩) rfl rfl rfl rfl
    | some j => exact hsame (hforget j) rfl rfl rfl rfl
  | read i =>
    obtain ⟨_, v, hv⟩ := hpre
    cases hexec
    refine ⟨fun {j t} hj => ?_, h.claimed, h.locked⟩
    rcases List.mem_cons.mp hj with hj | hj
    · cases hj
      exact ⟨(hb.own p).held hv, rfl⟩
    · exact hkeep hj (by rintro ⟨⟩)
  | ilock i =>
    have hlocked {c : Nat} (hc : (ls p).fresh = some c) :
        ∃ v, (c, v) ∈ ((ls p).lock i (s.view i)).held := by
      rcases h.locked hc with ⟨v, hv⟩ | ⟨t, hclaimed⟩
      · exact ⟨v, List.mem_cons_of_mem _ hv⟩
      · obtain rfl : c = i := hnote _ hclaimed
        exact ⟨_, List.mem_cons_self⟩
    have hafter : (m.after (.ilock i) r).claimed = none := by
      simp only [Note.after]
      split
      · assumption
      · rfl
    refine ⟨fun {j t} hj => ?_, fun hj => by simp [hafter] at hj, fun hc => .inl (hlocked hc)⟩
    simp only [Note.after] at hj
    split at hj
    · exact hkeep hj (by rintro ⟨⟩)
    · rename_i x hx
      rcases List.mem_cons.mp hj with hj | hj
      · subst hj
        obtain ⟨hfresh, hftype, _⟩ := h.claimed hx
        obtain rfl : j = i := hnote _ hx
        have hmem : j ∈ (ls p).refs := hpre.2.1
        refine ⟨hmem, ?_⟩
        rw [type_kept ht (exec_viewStep hexec) (hb.ref_live hmem) (by rintro ⟨⟩), ← hftype]
        exact (ht.fresh hfresh).type
      · exact hkeep hj (by rintro ⟨⟩)
  | iunlock i =>
    refine ⟨fun hj => hkeep hj (by rintro ⟨⟩), fun hj => ?_, fun hc => ?_⟩
    · have hnone : m.claimed = none := hnote
      simp [Note.after, hnone] at hj
    · have hfresh : (ls p).fresh = none := hpre.2.1
      have hc : (ls p).fresh = some _ := hc
      simp [hfresh] at hc
  | writeDirent d slot de =>
    have hnone : m.claimed = none := hnote.1
    cases r with
    | false => exact hsame (fun x hx => ⟨hx, by rintro ⟨⟩⟩) rfl rfl rfl rfl
    | true =>
      refine ⟨fun hj => hkeep hj (by rintro ⟨⟩), fun hj => by simp [Note.after, hnone] at hj, fun hc => ?_⟩
      rcases h.locked (Ledger.wrote_fresh hc) with ⟨v, hv⟩ | ⟨t, hclaimed⟩
      · left
        rename_i c
        have hheld := ((ls p).wrote_keeps d (s.view d) slot de).1
        by_cases hcd : c = d
        · subst hcd
          exact ⟨_, hheld ▸ Ledger.mem_setView.mpr (.inr ⟨rfl, rfl, v, hv⟩)⟩
        · exact ⟨v, hheld ▸ Ledger.mem_setView.mpr (.inl ⟨hcd, hv⟩)⟩
      · simp [hnone] at hclaimed
  | claim i type =>
    cases r with
    | false => exact hsame (fun x hx => ⟨hx, by rintro ⟨⟩⟩) rfl rfl rfl rfl
    | true =>
      refine ⟨fun hj => hkeep hj (by rintro ⟨⟩), fun hj => ?_, fun hc => ?_⟩
      · cases hj
        cases Fs.exec_step hexec
        exact ⟨rfl, rfl, by rw [Fs.inode_setInode_self]⟩
      · cases hc
        exact .inr ⟨type, rfl⟩
  | panic e => cases hexec

theorem note_post (hb : BaseInv N s ls) (ht : TreeInv N s ls) (hexec : s.exec p a = .next (r, s'))
    (h : NoteInv s (ls p) m) :
    noteRules.post a m r (m.after a r) := by
  cases Fs.exec_step hexec with
  | claim type hfree =>
    exact ⟨fun x hx hxi => ht.alloc (hb.ref_live (h.known hx).1) (hxi ▸ hfree), rfl⟩
  | _ => rfl

/-- Everything that a prudent run keeps of directories. -/
structure FormatInv (N : Nat) (s : Fs P) (ls : P → Ledger × Note) : Prop where
  base : BaseInv N s fun q => (ls q).1
  tree : TreeInv N s fun q => (ls q).1
  notes : ∀ q, NoteInv s (ls q).1 (ls q).2
  named : ∀ d, Named (s.inode d).ents
  plain : s.PlainFiles

theorem FormatInv.act {ls : P → Ledger × Note} (h : FormatInv N s ls)
    (hpre : ((fsRules N).prod noteRules).pre a (ls p)) (hok : s.prudent a)
    (hexec : s.exec p a = .next (r, s')) :
    ∃ l, ((fsRules N).prod noteRules).post a (ls p) r l ∧
      FormatInv N s' (Function.update ls p l) := by
  have hfst : (fun q => (Function.update ls p (s.after (ls p).1 a r, (ls p).2.after a r) q).1) =
      Function.update (fun q => (ls q).1) p (s.after (ls p).1 a r) := by
    funext q
    by_cases hq : q = p
    · rw [hq, update_self, update_self]
    · rw [update_of_ne hq, update_of_ne hq]
  refine ⟨(s.after (ls p).1 a r, (ls p).2.after a r),
    ⟨h.base.post hpre.1 hexec, note_post h.base h.tree hexec (h.notes p)⟩, ?_⟩
  constructor
  case base =>
    rw [hfst]
    exact h.base.act hpre.1 hexec
  case tree =>
    rw [hfst]
    exact h.tree.act h.base hpre.1 hok hexec
  case notes =>
    intro q
    by_cases hq : q = p
    · subst hq
      rw [update_self]
      exact noteInv_self h.base h.tree hpre.1 hexec hpre.2 (h.notes q)
    · rw [update_of_ne hq]
      exact noteInv_other h.base h.tree hpre.1 (exec_viewStep hexec) hq (h.notes q)
  case named => exact named_step h.base (exec_viewStep hexec) hpre.1 hpre.2 h.named
  case plain => exact plainFiles_step h.base h.tree hpre.1 hexec hpre.2 (h.notes p) h.plain

end Step

/-- The bytes of a directory. -/
def Fs.data (s : Fs P) (d : Nat) : List UInt8 := dirBytes (s.inode d).ents

structure Fs.GoodDir (s : Fs P) (d : Nat) : Prop where
  size : DIRENTSIZE ∣ (s.data d).length
  dots : ∃ parent rest, (s.inode d).ents = ⟨d, dot⟩ :: ⟨parent, dotdot⟩ :: rest
  distinct : ((s.inode d).ents.filter fun e => e.inum ≠ 0).Pairwise fun e e' =>
    namecmp (nameOf e.bytes) (nameOf e'.bytes) ≠ 0
  names : ∀ e ∈ (s.inode d).ents, e.inum ≠ 0 →
    cstr DIRSIZ (nameOf e.bytes) ≠ [] ∧ slash ∉ cstr DIRSIZ (nameOf e.bytes)

/-- The loops over the bytes of the directory read whole dirents only, and find what the lookups of
`Xv6.Dir.Calls` find in its entries; `writei` of a dirent changes the bytes as the entries change. -/
structure Fs.Readable (s : Fs P) (d : Nat) : Prop where
  lookup : ∀ name, dirlookupBytes (s.data d) name =
    .ok ((dirSearch (cstr DIRSIZ name) (s.inode d).ents 0).map fun r => (r.1, DIRENTSIZE * r.2))
  slot : emptySlotBytes (s.data d) = .ok (DIRENTSIZE * emptySlot (s.inode d).ents)
  empty : isdiremptyBytes (s.data d) = .ok (isdirempty (s.inode d).ents)
  write : ∀ slot de, writeData (s.data d) (DIRENTSIZE * slot) de.bytes =
    if (s.writeDirent d slot de).1 then some ((s.writeDirent d slot de).2.data d) else none

/-- The directory has just been claimed by `ialloc`, and the call is about to lock it. -/
def Pool.claims (c : FsPool P) (d : Nat) : Prop :=
  (c.state.inode d).ents = [] ∧
    ∃ p, c.next p = some (.iget d) ∨ c.next p = some (.ilock d)

theorem Named.readable {d : Nat} (h : Named (s.inode d).ents) : s.Readable d where
  lookup := dirlookupBytes_eq h.inum h.valid
  slot := emptySlotBytes_eq h.inum
  empty := isdiremptyBytes_eq h.inum
  write := by
    intro slot de
    rw [Fs.data, writeData_dirBytes, Fs.writeDirent]
    by_cases hout : slot > (s.inode d).ents.length ∨ (slot + 1) * DIRENTSIZE > MAXFILE * BSIZE
    · rw [if_pos hout, if_pos hout]
      rfl
    · rw [if_neg hout, if_neg hout, if_pos rfl, Fs.data, Fs.inode_setInode_self]

theorem cstr_nameOf {e : Dirent} (h : validName e.name) : cstr DIRSIZ (nameOf e.bytes) = e.name := by
  have hname : nameOf e.bytes = strncpy DIRSIZ e.name := rfl
  rw [hname, cstr_strncpy, h.cstr_eq]

theorem Named.goodDir {d parent : Nat} (h : Named (s.inode d).ents)
    (hdots : s.shaped d parent) : s.GoodDir d where
  size := ⟨_, length_dirBytes _⟩
  dots := by
    obtain ⟨rest, hents, _⟩ := hdots
    exact ⟨parent, rest, hents⟩
  distinct := by
    have hnodup := List.pairwise_map.mp h.distinct
    refine hnodup.imp_of_mem fun {e e'} he he' hne hcmp => ?_
    have hlive := List.mem_filter.mp he
    have hlive' := List.mem_filter.mp he'
    have hvalid := h.valid e hlive.1 (by simpa using hlive.2)
    have hvalid' := h.valid e' hlive'.1 (by simpa using hlive'.2)
    rw [e'.namecmp_bytes hvalid', cstr_nameOf hvalid] at hcmp
    exact hne hcmp
  names := by
    intro e he hne
    have hvalid := h.valid e he hne
    rw [cstr_nameOf hvalid]
    exact ⟨hvalid.1, hvalid.2.1⟩

/-- Prudent actions, and calls whose path arguments are C strings. -/
def Pool.ordinary (c : FsPool P) : PoolEvent P Syscall → Prop
  | .start _ call => call.CStrings
  | .run p => Kernel.allows (fun s _ a => s.prudent a) c (.run p : PoolEvent P Syscall)

instance (c : FsPool P) : (e : PoolEvent P Syscall) → Decidable (c.ordinary e)
  | .start _ call => inferInstanceAs (Decidable call.CStrings)
  | .run p => inferInstanceAs
      (Decidable (Kernel.allows (fun s _ a => s.prudent a) c (.run p : PoolEvent P Syscall)))

theorem Pool.ordinary.allows {c : FsPool P} {e : PoolEvent P Syscall} (h : c.ordinary e) :
    Kernel.allows (fun s _ a => s.prudent a) c e := by
  cases e with
  | start p call => trivial
  | run p => exact h

section Runs

variable [Fintype P] [DecidableEq P] {N : Nat} {s₀ : Fs P} {c : FsPool P}

theorem tied_format (hboot : s₀.Boot N) (hnamed : ∀ d, Named (s₀.inode d).ents)
    (hc : Reach (fsKernel P N).step Pool.ordinary s₀.boot c) :
    Kernel.Tied ((fsRules N).prod noteRules) (fun l => l.1 = .idle ∧ l.2.claimed = none)
      (FormatInv N) c := by
  have hinit : FormatInv N s₀ fun _ => ((.idle, ⟨[], none⟩) : Ledger × Note) :=
    { base := hboot.base
      tree := hboot.treeInv
      notes := fun _ => ⟨by simp, by simp, by simp [Ledger.idle]⟩
      named := hnamed
      plain := fun f htype => by simp [(hboot.file f).2] at htype }
  refine hc.invariant ⟨_, hinit, fun _ => ⟨rfl, rfl⟩⟩ fun c e c' h hok hs => ?_
  refine Kernel.Tied.step (fun s _ a => s.prudent a) ?_ c e c' h ?_ hok.allows hs
  · intro s ls p a r s' hinv hpre hprudent hexec
    exact hinv.act hpre hprudent hexec
  · rintro p call rfl ⟨l, m⟩ ⟨rfl, hm⟩
    exact Rules.wp_prod _ (wp_syscall hboot.size call) (Note.wp_syscall N hok hm)

omit [Fintype P] [DecidableEq P] in
theorem next_of_claimed {p : P} {l : Ledger × Note} {t : InodeType}
    (hfit : Kernel.Fits ((fsRules N).prod noteRules) (fun l => l.1 = .idle ∧ l.2.claimed = none)
      (c.thread p) l)
    (hclaimed : l.2.claimed = some (i, t)) :
    c.next p = some (.iget i) ∨ c.next p = some (.ilock i) := by
  have hne : l.2.claimed ≠ none := by simp [hclaimed]
  cases hthread : c.thread p with
  | none =>
    rw [hthread] at hfit
    exact absurd hfit.2 hne
  | some t =>
    rw [hthread] at hfit
    cases t with
    | ret x => exact absurd hfit.2 hne
    | act a k =>
      have hpre : noteRules.pre a l.2 := hfit.1.2
      have hnext : c.next p = some a := by simp [Pool.next, hthread]
      rw [hnext]
      cases a with
      | iget j => exact .inl (by rw [← hpre _ hclaimed])
      | ilock j => exact .inr (by rw [← hpre _ hclaimed])
      | writeDirent d slot de | setFile f j rd wr => exact absurd hpre.1 hne
      | _ => exact absurd hpre hne

/-- In every prudent run a directory that is not locked is well formed, unless a call has just claimed
it and is about to lock it; no directory is open for writing; no loop over a directory reads part of
a dirent; and `create` never finds the name that it is about to enter. -/
theorem directories_well_formed (hboot : s₀.Boot N) (hnamed : ∀ d, Named (s₀.inode d).ents)
    (hc : Reach (fsKernel P N).step Pool.ordinary s₀.boot c) :
    (∀ d, (c.state.inode d).type = .dir → (c.state.inode d).lock = none →
      c.state.GoodDir d ∨ c.claims d) ∧
    c.state.PlainFiles ∧
    (∀ d, c.state.Readable d) ∧
    ∀ e, (fsKernel P N).step c e ≠ .panic .createDirlink := by
  obtain ⟨ls, hinv, hfit⟩ := tied_format hboot hnamed hc
  refine ⟨fun d hdir hlock => ?_, hinv.plain, fun d => (hinv.named d).readable, fun e he => ?_⟩
  · by_cases hfresh : Unfresh (fun q => (ls q).1) d
    · obtain ⟨parent, hshape, _⟩ := hinv.tree.dots hdir hfresh
      exact .inl ((hinv.named d).goodDir hshape)
    · obtain ⟨p, hp⟩ := not_forall_not.mp hfresh
      rcases (hinv.notes p).locked hp with hheld | ⟨t, hclaimed⟩
      · have hholder := (hinv.base.locks.holder d p).mpr (.inl hheld)
        simp [hlock] at hholder
      · exact .inr ⟨((hinv.notes p).claimed hclaimed).2.2, p, next_of_claimed (hfit p) hclaimed⟩
  · obtain ⟨p, a, hnext, hexec⟩ := Kernel.step_panic he
    have hpre := ((hfit p).pre hnext).1
    cases Fs.exec_panic hexec with
    | called => exact absurd rfl hpre.2.2

end Runs

theorem emptyImage_named {P : Type} [Fintype P] (N d : Nat) :
    Named ((emptyImage P N).inode d).ents := by
  simp only [emptyImage]
  split_ifs
  · refine ⟨?_, ?_, ?_⟩
    · simp [ROOTINO]
    · simp [validName, dot, dotdot, slash, DIRSIZ]
    · simp [liveNames, ROOTINO, dot, dotdot]
  · exact .nil

/-- `mkdir("a")`, and then `open("a/f", O_CREATE)` up to the lock of the directory. -/
theorem directories_well_formed_mkdirOpen :
    ∃ c : FsPool (Fin 1), runEvents (fsKernel (Fin 1) 8).step (emptyImage (Fin 1) 8).boot
        (callFor 0 (.mkdir [97]) 28 ++ callFor 0 (.open [97, 47, 102] O_CREATE) 6) = .next c ∧
      (c.state.inode 2).type = .dir ∧ (c.state.inode 2).lock = none ∧
      (c.state.GoodDir 2 ∨ c.claims 2) := by
  have hok : Along (fsKernel (Fin 1) 8).step Pool.ordinary (emptyImage (Fin 1) 8).boot
      (callFor 0 (.mkdir [97]) 28 ++ callFor 0 (.open [97, 47, 102] O_CREATE) 6) := by
    decide +kernel
  obtain ⟨c, hc, hdir, hlock⟩ := Outcome.exists_of_holds
    (Q := fun c => (c.state.inode 2).type = .dir ∧ (c.state.inode 2).lock = none)
    (show (runEvents (fsKernel (Fin 1) 8).step (emptyImage (Fin 1) 8).boot
      (callFor 0 (.mkdir [97]) 28 ++ callFor 0 (.open [97, 47, 102] O_CREATE) 6)).holds _ by
        decide +kernel)
  have hreach := Reach.of_runEvents .init _ hok hc
  exact ⟨c, hc, hdir, hlock, (directories_well_formed (emptyImage_boot (by decide) (by decide))
    (emptyImage_named 8) hreach).1 2 hdir hlock⟩

/-- An inode is claimed by `open` and freed, through a `..` that dangles, before `open` refers to it;
`mkdir` claims it again, and `open` takes the directory for its new file. -/
def reusedInode : List (PoolEvent (Fin 3) Syscall) :=
  -- Process 1 stops on its way from `/a/b` to `..`, and both directories are removed.
  callFor 0 (.mkdir [97]) 28 ++ callFor 0 (.mkdir [97, 47, 98]) 36 ++ callFor 0 (.mkdir [101]) 30 ++
    callFor 1 (.unlink [97, 47, 98, 47, 46, 46, 47, 120]) 15 ++
    callFor 0 (.unlink [97, 47, 98]) 26 ++ callFor 0 (.unlink [97]) 20 ++
    List.replicate 8 (.run 1) ++
  -- Process 2 claims the inode for `/e/f`, process 1 locks it, sees no directory and puts it.
    callFor 2 (.open [101, 47, 102] (O_CREATE + O_RDWR)) 15 ++ List.replicate 7 (.run 1) ++
  -- Process 0 claims it for `/d`.
    callFor 0 (.mkdir [100]) 8 ++ List.replicate 14 (.run 2)

/-- A directory that `mkdir` has claimed has no entries before it is locked; and a directory can be
open for writing. -/
theorem directories_ill_formed :
    (∃ c : FsPool (Fin 1), runEvents (fsKernel (Fin 1) 8).step (emptyImage (Fin 1) 8).boot
        (callFor 0 (.mkdir [97]) 8) = .next c ∧
      (c.state.inode 2).type = .dir ∧ (c.state.inode 2).lock = none ∧
      (c.state.inode 2).ents = []) ∧
    ∃ c : FsPool (Fin 3), runEvents (fsKernel (Fin 3) 8).step (emptyImage (Fin 3) 8).boot
        reusedInode = .next c ∧
      (c.state.file 0).ref = 1 ∧ (c.state.file 0).type = .inode ∧
      (c.state.file 0).writable = true ∧ (c.state.inode (c.state.file 0).ip).type = .dir := by
  constructor
  · refine Outcome.exists_of_holds (Q := fun c : FsPool (Fin 1) => (c.state.inode 2).type = .dir ∧
      (c.state.inode 2).lock = none ∧ (c.state.inode 2).ents = []) ?_
    decide +kernel
  · refine Outcome.exists_of_holds (Q := fun c : FsPool (Fin 3) => (c.state.file 0).ref = 1 ∧
      (c.state.file 0).type = .inode ∧ (c.state.file 0).writable = true ∧
      (c.state.inode (c.state.file 0).ip).type = .dir) ?_
    decide +kernel

end Xv6
