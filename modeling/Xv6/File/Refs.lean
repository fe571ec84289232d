import Xv6.Dir.Image
import Xv6.File.Hand

/-!
# References of a growing set of processes

Conservation of references under `dup`, `pipe`, `fork`, `exit` and `wait`: the slots that `fork` fills and
those that do not run are the only ones that another process changes.
-/

namespace Xv6

open Function (update_eq_self update_of_ne update_self)

variable {P : Type} {f : FileId} {fd : Fd} {l : Hand P} {i : Nat}

/-- What `fork` knows of the slot it fills, and what the slots that do not run still refer to. -/
structure SlotInv (s : Files P) (ls : P → Hand P) : Prop where
  child : ∀ {p np}, (ls p).child = some np →
    s.state np = .embryo ∧ ∀ fd ∈ (ls p).todo, s.fs.ofile np fd = none
  unique : ∀ {p q np}, (ls p).child = some np → (ls q).child = some np → p = q
  dead : ∀ {p}, s.state p ≠ .runnable → ls p = .idle ∧ s.fs.cwd p = none ∧
    (s.state p ≠ .embryo → ∀ fd, s.fs.ofile p fd = none)

theorem SlotInv.step [DecidableEq P] {s : Files P} (s' : Files P) {ls : P → Hand P} {p np : P}
    (h : SlotInv s ls) (hrun : s.state p = .runnable) (hne : np ≠ p)
    (hstate : ∀ q, q ≠ np → s'.state q = s.state q)
    (hofile : ∀ q, q ≠ np → s'.fs.ofile q = s.fs.ofile q)
    (hcwd : ∀ q, q ≠ np → s'.fs.cwd q = s.fs.cwd q) (hothers : ∀ q, q ≠ p → (ls q).child ≠ some np)
    (hchild : ∀ {k}, l.child = some k →
      k = np ∧ s'.state np = .embryo ∧ ∀ fd ∈ l.todo, s'.fs.ofile np fd = none)
    (hdead : s'.state np ≠ .runnable → ls np = .idle ∧ s'.fs.cwd np = none ∧
      (s'.state np ≠ .embryo → ∀ fd, s'.fs.ofile np fd = none)) :
    SlotInv s' (Function.update ls p l) := by
  have hold {q k : P} (hq : (Function.update ls p l q).child = some k) :
      q = p ∧ k = np ∨ q ≠ p ∧ k ≠ np ∧ (ls q).child = some k := by
    by_cases hqp : q = p
    · subst hqp
      rw [update_self] at hq
      exact .inl ⟨rfl, (hchild hq).1⟩
    · rw [update_of_ne hqp] at hq
      exact .inr ⟨hqp, fun hk => hothers q hqp (hk ▸ hq), hq⟩
  constructor
  case child =>
    intro q k hq
    rcases hold hq with ⟨rfl, rfl⟩ | ⟨hqp, hk, hq⟩
    · rw [update_self] at hq ⊢
      exact (hchild hq).2
    · rw [update_of_ne hqp, hstate k hk, hofile k hk]
      exact h.child hq
  case unique =>
    intro q r k hq hr
    rcases hold hq with ⟨rfl, rfl⟩ | ⟨_, hk, hq⟩ <;>
      rcases hold hr with ⟨rfl, hk'⟩ | ⟨_, hk', hr⟩
    · rfl
    · exact absurd rfl hk'
    · exact absurd hk' hk
    · exact h.unique hq hr
  case dead =>
    intro q hq
    by_cases hqn : q = np
    · subst hqn
      rw [update_of_ne hne]
      exact hdead hq
    · have hqp : q ≠ p := by
        rintro rfl
        exact hq ((hstate q hqn).trans hrun)
      rw [hstate q hqn] at hq ⊢
      rw [update_of_ne hqp, hcwd q hqn, hofile q hqn]
      exact h.dead hq

theorem SlotInv.keep [DecidableEq P] {s s' : Files P} {ls : P → Hand P} {p : P} (h : SlotInv s ls)
    (hrun : s.state p = .runnable) (hstate : s'.state = s.state)
    (hothers : ∀ q, q ≠ p → s'.fs.ofile q = s.fs.ofile q ∧ s'.fs.cwd q = s.fs.cwd q)
    (hchild : ∀ {np}, l.child = some np → (ls p).child = some np ∧ l.todo = (ls p).todo) :
    SlotInv s' (Function.update ls p l) := by
  have hkeep {q np : P} (hq : (Function.update ls p l q).child = some np) :
      (ls q).child = some np ∧ (Function.update ls p l q).todo = (ls q).todo := by
    by_cases hqp : q = p
    · subst hqp
      rw [update_self] at hq ⊢
      exact hchild hq
    · rw [update_of_ne hqp] at hq ⊢
      exact ⟨hq, rfl⟩
  constructor
  case child =>
    intro q np hnp
    have hold := h.child (hkeep hnp).1
    have hne : np ≠ p := by
      rintro rfl
      simp [hold.1] at hrun
    rw [hstate, (hothers np hne).1, (hkeep hnp).2]
    exact hold
  case unique =>
    intro q r np hq hr
    exact h.unique (hkeep hq).1 (hkeep hr).1
  case dead =>
    intro q hq
    rw [hstate] at hq ⊢
    have hqp : q ≠ p := by
      rintro rfl
      exact hq hrun
    rw [update_of_ne hqp, (hothers q hqp).1, (hothers q hqp).2]
    exact h.dead hq

theorem Hand.post_child {a : FsAct} {r : a.Res} {l' : Hand P} (h : (handFsRules P).post a l r l') :
    l'.child = l.child ∧ l'.todo = l.todo := by
  cases a with
  | filealloc | fileclose f | takeFd fd => cases r <;> cases h <;> exact ⟨rfl, rfl⟩
  | fdalloc f =>
    cases r with
    | none =>
      cases h
      exact ⟨rfl, rfl⟩
    | some fd =>
      cases h
      dsimp only
      split_ifs <;> exact ⟨rfl, rfl⟩
  | setCwd i => cases i <;> cases h <;> exact ⟨rfl, rfl⟩
  | panic e => exact r.elim
  | _ =>
    cases h
    exact ⟨rfl, rfl⟩

theorem Fs.exec_others [DecidableEq P] {s s' : Fs P} {p q : P} {a : FsAct} {r : a.Res}
    (hexec : s.exec p a = .next (r, s')) (hq : q ≠ p) :
    s'.ofile q = s.ofile q ∧ s'.cwd q = s.cwd q := by
  cases Fs.exec_step hexec with
  | fdalloc | takeFd => exact ⟨update_of_ne hq .., rfl⟩
  | setCwd => exact ⟨rfl, update_of_ne hq ..⟩
  | _ => exact ⟨rfl, rfl⟩

namespace RefInv

variable [Fintype P] {s s' : Fs P} {ls : P → Hand P} {p np : P}

/-- The ledgers differ only in what they say of a child. -/
theorem relabel (h : RefInv s ls) {ls' : P → Hand P}
    (hls : ∀ q, ls' q = { ls q with child := (ls' q).child, todo := (ls' q).todo }) : RefInv s ls' := by
  constructor
  case refs =>
    intro i
    have hsame (q : P) (cwd : Option Nat) : (ls' q).countRef cwd i = (ls q).countRef cwd i := by
      rw [hls q]
      rfl
    simp only [hsame]
    exact h.refs i
  case files =>
    intro f
    have howes (q : P) : (ls' q).owes f = (ls q).owes f := by
      rw [hls q]
      rfl
    have hshare (q : P) (ofile : Fd → Option FileId) :
        (ls' q).share ofile f = (ls q).share ofile f := by
      rw [hls q]
      rfl
    simp only [howes, hshare]
    exact h.files f
  case unused => exact h.unused
  case sound =>
    intro q
    rw [hls]
    exact { h.sound q with }
  case apart =>
    intro q r f hq hr
    rw [hls] at hq hr
    exact h.apart hq hr

variable [DecidableEq P] (h : RefInv s ls)
include h

theorem relabel_update (c : Option P) (t : List Fd) :
    RefInv s (Function.update ls p { ls p with child := c, todo := t }) := by
  refine h.relabel fun q => ?_
  by_cases hq : q = p
  · subst hq
    rw [update_self]
  · rw [update_of_ne hq]

theorem filedup (f : FileId) :
    RefInv (s.setFile f { s.file f with ref := (s.file f).ref + 1 })
      (Function.update ls p
        (if (ls p).debt = some f then { ls p with debt := none } else (ls p).addFile f)) := by
  have hold := h.sound p
  split_ifs with hd
  · refine h.moveEntry (d := none) (fun _ => rfl) ?_ (fun g hg => ⟨?_, rfl⟩) (by simp) (.inl rfl)
      hold.nodup (fun g hg _ => hg) (fun hf => ⟨(hold.fresh hf).1, (hold.fresh hf).2, .inl hf⟩) nofun
    · simp [Hand.owes, hd]
    · simp [Hand.owes, hd, Ne.symm hg]
  · refine h.moveEntry (u := f ::ₘ (ls p).files) (d := (ls p).debt) (fun _ => rfl) ?_
      (fun g hg => ⟨rfl, Multiset.count_cons_of_ne hg _⟩) (by simp) (.inl rfl)
      hold.nodup (fun g hg _ => hg) (fun hf => ⟨(hold.fresh hf).1, by simp, .inl hf⟩) id
    rw [Multiset.count_cons_self, Hand.owes]
    dsimp only
    omega

theorem setPipe {rd wr : Bool} (hf : f ∈ (ls p).fresh) :
    RefInv (s.setFile f { s.file f with readable := rd, writable := wr })
      (Function.update ls p { ls p with fresh := (ls p).fresh.erase f }) :=
  h.leaveEntry (fun _ => rfl) rfl (fun _ _ => rfl) h.unused (.inr (.inr hf))

theorem reset (hclear : (ls p).Clear) : RefInv s (Function.update ls p .idle) := by
  refine h.update (fun _ _ => rfl) (fun _ _ => rfl) (fun i => ?_) (fun f => ?_) (fun _ => h.unused)
    (fun q _ f hf => ((h.sound q).fresh hf).1) (.idle _ _) fun f hf => absurd hf (Multiset.notMem_zero f)
  · simp [Hand.countRef, Hand.idle, hclear.refs, hclear.cwd]
  · simp [Hand.share, Hand.owes, Hand.idle, hclear.files, hclear.debt]

/-- References pass from the hands of `p` to the tables of `np`, which is idle. -/
theorem give (hne : np ≠ p) (hidle : ls np = .idle) (hinode : s'.inode = s.inode)
    (hfile : s'.file = s.file) (hofile : ∀ q, q ≠ np → s'.ofile q = s.ofile q)
    (hcwd : ∀ q, q ≠ np → s'.cwd q = s.cwd q)
    (hrefs : ∀ i, (ls p).countRef (s.cwd p) i + (ls np).countRef (s.cwd np) i =
      l.countRef (s.cwd p) i + (ls np).countRef (s'.cwd np) i)
    (hshare : ∀ f, (ls p).share (s.ofile p) f + (ls np).share (s.ofile np) f =
      l.share (s.ofile p) f + (ls np).share (s'.ofile np) f)
    (howes : ∀ f, l.owes f = (ls p).owes f) (hfresh : l.fresh = (ls p).fresh)
    (hsound : l.Sound s' p) : RefInv s' (Function.update ls p l) := by
  constructor
  case refs =>
    intro i
    have hsum := sum_balance_two (f := fun q => (ls q).countRef (s.cwd q) i)
      (g := fun q => (Function.update ls p l q).countRef (s'.cwd q) i) hne.symm
      (fun q hq hq' => by simp only [update_of_ne hq, hcwd q hq'])
    have hfiles : s'.fileRefs i = s.fileRefs i := by simp only [Fs.fileRefs, hfile]
    have hold := h.refs i
    have hbal := hrefs i
    simp only [update_self, update_of_ne hne, hcwd p hne.symm] at hsum
    rw [hinode, hfiles]
    omega
  case files =>
    intro f
    have hsum := sum_balance_two (f := fun q => (ls q).share (s.ofile q) f)
      (g := fun q => (Function.update ls p l q).share (s'.ofile q) f) hne.symm
      (fun q hq hq' => by simp only [update_of_ne hq, hofile q hq'])
    have hsame (q : P) : (Function.update ls p l q).owes f = (ls q).owes f :=
      Kernel.field_update (fun x : Hand P => x.owes f) (howes f) q
    have hold := h.files f
    have hbal := hshare f
    simp only [update_self, update_of_ne hne, hofile p hne.symm] at hsum
    simp only [hsame, hfile]
    omega
  case unused => exact hfile ▸ h.unused
  case sound =>
    intro q
    by_cases hqp : q = p
    · subst hqp
      rwa [update_self]
    by_cases hqn : q = np
    · subst hqn
      rw [update_of_ne hne, hidle]
      exact .idle _ _
    · rw [update_of_ne hqp]
      refine (h.sound q).keep _ (hofile q hqn) (hcwd q hqn) fun f hf => ?_
      rw [hfile]
      exact ((h.sound q).fresh hf).1
  case apart =>
    intro q r f hq hr
    rw [Kernel.field_update Hand.fresh hfresh] at hq hr
    exact h.apart hq hr

end RefInv

structure FilesInv [Fintype P] (s : Files P) (ls : P → Hand P) : Prop where
  refs : RefInv s.fs ls
  slots : SlotInv s ls

variable {a : FileAct P}

namespace FilesInv

variable [Fintype P] [DecidableEq P] {s s' : Files P} {ls : P → Hand P} {p np : P}
  {pi : FileId → Bool} {fs' : Fs P}

omit [Fintype P] [DecidableEq P] in
theorem ne_runnable (hrun : s.state p = .runnable) (hnp : s.state np ≠ .runnable) :
    np ≠ p :=
  fun heq => hnp (heq ▸ hrun)

variable (h : FilesInv s ls)
include h

omit [DecidableEq P] in
theorem others (hchild : (ls p).child = some np) (q : P) (hq : q ≠ p) :
    (ls q).child ≠ some np :=
  fun hc => hq (h.slots.unique hc hchild)

variable (hrun : s.state p = .runnable)
include hrun

/-- An action that changes the tables of no other process. -/
theorem ownTables (hrefs : RefInv fs' (Function.update ls p l))
    (hothers : ∀ q, q ≠ p → fs'.ofile q = s.fs.ofile q ∧ fs'.cwd q = s.fs.cwd q)
    (hchild : l.child = (ls p).child ∧ l.todo = (ls p).todo) :
    FilesInv { s with fs := fs', pipe := pi } (Function.update ls p l) :=
  ⟨hrefs, h.slots.keep hrun rfl hothers fun hk => ⟨hchild.1 ▸ hk, hchild.2⟩⟩

theorem allocproc (hnp : s.state np = .unused) :
    FilesInv (s.setState np .embryo)
      (Function.update ls p { ls p with child := some np, todo := List.finRange NOFILE }) := by
  have hdead := h.slots.dead (by simp [hnp] : s.state np ≠ .runnable)
  have hnone := hdead.2.2 (by simp [hnp])
  have hself : (s.setState np .embryo).state np = .embryo := update_self ..
  refine ⟨h.refs.relabel_update _ _, h.slots.step _ hrun (ne_runnable hrun (by simp [hnp]))
    (fun q hq => update_of_ne hq ..) (fun _ _ => rfl) (fun _ _ => rfl) ?_ ?_
    fun _ => ⟨hdead.1, hdead.2.1, fun _ => hnone⟩⟩
  · intro q _ hq
    simp [(h.slots.child hq).1] at hnp
  · rintro k ⟨⟩
    exact ⟨rfl, hself, fun fd _ => hnone fd⟩

theorem freeproc (hchild : (ls p).child = some np) (htodo : ∀ fd, fd ∈ (ls p).todo) :
    FilesInv (s.setState np .unused)
      (Function.update ls p { ls p with child := none, todo := [] }) := by
  obtain ⟨hnp, hnone⟩ := h.slots.child hchild
  have hdead := h.slots.dead (by simp [hnp] : s.state np ≠ .runnable)
  exact ⟨h.refs.relabel_update _ _, h.slots.step _ hrun (ne_runnable hrun (by simp [hnp]))
    (fun q hq => update_of_ne hq ..) (fun _ _ => rfl) (fun _ _ => rfl) (h.others hchild)
    nofun fun _ => ⟨hdead.1, hdead.2.1, fun _ fd => hnone fd (htodo fd)⟩⟩

theorem reap {q : P} (hq : s.state q = .zombie) (hchild : (ls p).child = none) :
    FilesInv (s.setState q .unused) ls := by
  have hdead := h.slots.dead (by simp [hq] : s.state q ≠ .runnable)
  have hslots := h.slots.step (s.setState q .unused) (l := ls p) hrun
    (ne_runnable hrun (by simp [hq])) (fun r hr => update_of_ne hr ..) (fun _ _ => rfl)
    (fun _ _ => rfl) (fun r _ hr => by simp [(h.slots.child hr).1] at hq)
    (fun hk => by simp [hchild] at hk)
    (fun _ => ⟨hdead.1, hdead.2.1, fun _ => hdead.2.2 (by simp [hq])⟩)
  rw [update_eq_self] at hslots
  exact ⟨h.refs, hslots⟩

theorem setOfile (hchild : (ls p).child = some np) (hfd : fd ∈ (ls p).todo) (hf : f ∈ (ls p).files)
    (hfresh : (ls p).fresh = 0) :
    FilesInv { s with fs := s.fs.setOfile np fd (some f) }
      (Function.update ls p
        { (ls p).dropFile f with todo := (ls p).todo.filter (· ≠ fd) }) := by
  obtain ⟨hnp, htodo⟩ := h.slots.child hchild
  have hdead := h.slots.dead (by simp [hnp] : s.state np ≠ .runnable)
  have hne : np ≠ p := ne_runnable hrun (by simp [hnp])
  have hself : (s.fs.setOfile np fd (some f)).ofile np =
      Function.update (s.fs.ofile np) fd (some f) := update_self ..
  have hofile (q : P) (hq : q ≠ np) : (s.fs.setOfile np fd (some f)).ofile q = s.fs.ofile q :=
    update_of_ne hq ..
  constructor
  case refs =>
    have hold := (h.refs.sound p).keep (s.fs.setOfile np fd (some f)) (hofile p hne.symm) rfl
      (fun g hg => ((h.refs.sound p).fresh hg).1)
    refine h.refs.give hne hdead.1 rfl rfl hofile (fun _ _ => rfl) (fun _ => rfl) (fun g => ?_)
      (fun _ => rfl) rfl { hold with fresh := fun {g} hg => ?_ }
    · have hcount := ofileCount_update (s.fs.ofile np) fd (some f) g
      have hdrop := count_erase_add hf g
      simp only [htodo fd hfd, Option.some.injEq, eq_comm (a := f), reduceCtorEq, if_false] at hcount
      simp only [hself, Hand.share, Hand.dropFile]
      omega
    · simp only [Hand.dropFile, hfresh] at hg
      exact absurd hg (Multiset.notMem_zero g)
  case slots =>
    refine h.slots.step _ hrun hne (fun _ _ => rfl) hofile (fun _ _ => rfl) (h.others hchild)
      (fun {k} hk => ?_) fun _ => ⟨hdead.1, hdead.2.1, fun hemb => absurd hnp hemb⟩
    cases hchild.symm.trans hk
    refine ⟨rfl, hnp, fun j hj => ?_⟩
    have hmem := List.mem_filter.mp hj
    rw [hself, update_of_ne (by simpa using hmem.2)]
    exact htodo j hmem.1

theorem publish (hchild : (ls p).child = some np) (hi : i ∈ (ls p).refs) :
    FilesInv
      { s.setState np .runnable with
        fs := { s.fs with cwd := Function.update s.fs.cwd np (some i) } }
      (Function.update ls p { (ls p).dropRef i with child := none, todo := [] }) := by
  obtain ⟨hnp, _⟩ := h.slots.child hchild
  have hdead := h.slots.dead (by simp [hnp] : s.state np ≠ .runnable)
  have hne : np ≠ p := ne_runnable hrun (by simp [hnp])
  have hcwd (q : P) (hq : q ≠ np) : Function.update s.fs.cwd np (some i) q = s.fs.cwd q :=
    update_of_ne hq ..
  constructor
  case refs =>
    refine h.refs.give hne hdead.1 rfl rfl (fun _ _ => rfl) hcwd (fun j => ?_) (fun _ => rfl)
      (fun _ => rfl) rfl { (h.refs.sound p).keep { s.fs with cwd := Function.update s.fs.cwd np (some i) }
        rfl (hcwd p hne.symm) (fun g hg => ((h.refs.sound p).fresh hg).1) with }
    have hdrop := count_erase_add hi j
    have hcount := Hand.countRef_of_cwd (l := ls p)
      (k := { (ls p).dropRef i with child := none, todo := [] }) rfl (s.fs.cwd p) j
    have hidle (cwd : Option Nat) : (Hand.idle : Hand P).countRef cwd j = if cwd = some j then 1 else 0 := by
      simp [Hand.countRef, Hand.idle]
    rw [hdead.1, hdead.2.1, hidle, hidle, if_neg (by simp)]
    dsimp only [Hand.dropRef] at hcount ⊢
    simp only [update_self, Option.some.injEq, eq_comm (a := i)]
    omega
  case slots =>
    exact h.slots.step _ hrun hne (fun q hq => update_of_ne hq ..) (fun _ _ => rfl) hcwd
      (h.others hchild) (by simp) fun hrun' => absurd (update_self ..) hrun'

theorem reset (hclear : (ls p).Clear) : FilesInv s (Function.update ls p .idle) :=
  ⟨h.refs.reset hclear, h.slots.keep hrun rfl (fun _ _ => ⟨rfl, rfl⟩) nofun⟩

theorem zombie (hclear : (ls p).Clear) (hgone : (ls p).gone = true)
    (hclosed : ∀ fd, fd ∈ (ls p).closed) :
    FilesInv (s.setState p .zombie) (Function.update ls p .idle) := by
  have hslots := (h.reset hrun hclear).slots
  refine ⟨h.refs.reset hclear, fun {q np} hq => ?_, hslots.unique, fun {q} hq => ?_⟩
  · have hold := hslots.child hq
    have hne : np ≠ p := ne_runnable hrun (by simp [hold.1])
    exact ⟨(update_of_ne hne ..).trans hold.1, hold.2⟩
  · by_cases hqp : q = p
    · subst hqp
      exact ⟨update_self .., (h.refs.sound q).gone hgone,
        fun _ fd => (h.refs.sound q).closed (hclosed fd)⟩
    · have hstate : (s.setState p .zombie).state q = s.state q := update_of_ne hqp ..
      rw [hstate] at hq ⊢
      exact hslots.dead hq

omit hrun in
theorem act {r : a.Res} (hpre : (handRules P).pre a (ls p)) (hexec : s.exec p a = .next (r, s')) :
    ∃ l, (handRules P).post a (ls p) r l ∧ FilesInv s' (Function.update ls p l) := by
  have hnone : FilesInv s (Function.update ls p (ls p)) := (update_eq_self p ls).symm ▸ h
  have hsame (q : P) (_ : q ≠ p) : s.fs.ofile q = s.fs.ofile q ∧ s.fs.cwd q = s.fs.cwd q := ⟨rfl, rfl⟩
  unfold Files.exec at hexec
  split_ifs at hexec with hrun
  cases a with
  | fs a =>
    simp only [Files.act] at hexec
    split at hexec <;> cases hexec
    rename_i hfs
    obtain ⟨l, hpost, hrefs⟩ := h.refs.fsAct hpre hfs
    exact ⟨l, hpost, h.ownTables hrun hrefs (fun q => Fs.exec_others hfs) (Hand.post_child hpost)⟩
  | argfd fd =>
    cases hexec
    refine ⟨_, rfl, ?_⟩
    split
    · exact hnone
    · rename_i f hf
      refine h.ownTables hrun (h.refs.look ?_ fun _ => (h.refs.sound p).closed) hsame ⟨rfl, rfl⟩
      rintro _ _ ⟨⟩
      exact hf
  | filedup f =>
    simp only [Files.act] at hexec
    split_ifs at hexec
    cases hexec
    exact ⟨_, rfl, h.ownTables hrun (h.refs.filedup f) hsame (by split_ifs <;> exact ⟨rfl, rfl⟩)⟩
  | clearFd fd =>
    cases hexec
    obtain ⟨hdebt, f, hslot⟩ := hpre
    refine ⟨_, ?_, h.ownTables hrun (h.refs.takeFd ((h.refs.sound p).slot hslot) hdebt fun _ => .inr)
      (fun q hq => ⟨update_of_ne hq .., rfl⟩) ⟨rfl, rfl⟩⟩
    intro g hg
    cases hslot.symm.trans hg
    rfl
  | setPipe f rd wr =>
    cases hexec
    exact ⟨_, rfl, h.ownTables hrun (h.refs.setPipe hpre) hsame ⟨rfl, rfl⟩⟩
  | allocproc np =>
    simp only [Files.act] at hexec
    split_ifs at hexec with hnp <;> cases hexec
    · exact ⟨_, rfl, h.allocproc hrun hnp⟩
    · exact ⟨_, rfl, hnone⟩
  | freeproc np =>
    cases hexec
    exact ⟨_, rfl, h.freeproc hrun hpre.1 hpre.2⟩
  | setOfile np fd f =>
    cases hexec
    obtain ⟨hchild, hfd, hf, hfresh⟩ := hpre
    exact ⟨_, rfl, h.setOfile hrun hchild hfd hf hfresh⟩
  | publish np ip =>
    cases hexec
    exact ⟨_, rfl, h.publish hrun hpre.1 hpre.2⟩
  | zombie =>
    cases hexec
    exact ⟨_, rfl, h.zombie hrun hpre.1 hpre.2.1 hpre.2.2⟩
  | reap q =>
    simp only [Files.act] at hexec
    split_ifs at hexec with hq <;> cases hexec
    · refine ⟨_, rfl, ?_⟩
      rw [update_eq_self]
      exact h.reap hrun hq hpre
    · exact ⟨_, rfl, hnone⟩
  | trapret =>
    cases hexec
    exact ⟨_, rfl, h.reset hrun hpre.1⟩

end FilesInv

/-- Every reference count is the number of places that refer: descriptors to an open file, open files
and working directories to an inode. -/
def Files.Balanced [Fintype P] (s : Files P) : Prop :=
  (∀ f, (s.fs.file f).ref = ∑ p, ∑ fd, if s.fs.ofile p fd = some f then 1 else 0) ∧
  ∀ i, (s.fs.inode i).ref =
    (∑ f, if 0 < (s.fs.file f).ref ∧ (s.fs.file f).type = .inode ∧ (s.fs.file f).ip = i then 1
      else 0) +
    ∑ p, if s.fs.cwd p = some i then 1 else 0

/-- A state between calls. -/
structure Files.Settled [Fintype P] (s : Files P) : Prop where
  balanced : s.Balanced
  unused : ∀ {f}, (s.fs.file f).ref = 0 → (s.fs.file f).type = .none
  dead : ∀ {p}, s.state p ≠ .runnable → s.fs.cwd p = none ∧ ∀ fd, s.fs.ofile p fd = none

section Runs

variable [Fintype P] {s : Files P} {ls : P → Hand P}

omit [Fintype P] in
theorem fileRefs_open {fs : Fs P} (h : ∀ {f}, (fs.file f).ref = 0 → (fs.file f).type = .none)
    (i : Nat) :
    (∑ f, if 0 < (fs.file f).ref ∧ (fs.file f).type = .inode ∧ (fs.file f).ip = i then 1 else 0) =
      fs.fileRefs i := by
  refine Finset.sum_congr rfl fun f _ => if_congr ⟨And.right, fun hf => ⟨?_, hf⟩⟩ rfl rfl
  by_contra hzero
  simp [h (Nat.eq_zero_of_not_pos hzero)] at hf

theorem Files.Settled.filesInv (h : s.Settled) : FilesInv s fun _ => .idle where
  refs :=
    { refs := fun i => by
        rw [h.balanced.2 i, fileRefs_open h.unused]
        simp [Hand.countRef, Hand.idle, Nat.add_comm]
      files := fun f => by
        rw [h.balanced.1 f]
        simp [Hand.owes, Hand.share, Hand.idle, ofileCount]
      unused := h.unused
      sound := fun _ => .idle _ _
      apart := fun hf => absurd hf (Multiset.notMem_zero _) }
  slots :=
    { child := nofun
      unique := nofun
      dead := fun hp => ⟨rfl, (h.dead hp).1, fun _ => (h.dead hp).2⟩ }

theorem FilesInv.balanced (h : FilesInv s ls) (hidle : ∀ p, ls p = .idle) : s.Balanced := by
  refine ⟨fun f => ?_, fun i => ?_⟩
  · have hfiles := h.refs.files f
    simpa [hidle, Hand.owes, Hand.share, Hand.idle, ofileCount] using hfiles
  · rw [fileRefs_open h.refs.unused, h.refs.refs i]
    simp [hidle, Hand.countRef, Hand.idle, Nat.add_comm]

variable [DecidableEq P]

theorem tied_refs {N : Nat} {s₀ : Files P} (hstart : s₀.Settled) {c : Pool P (Files P) _ _ Int}
    (hc : Reach (fileKernel P N).step (fun _ _ => True) ⟨s₀, fun _ => none⟩ c) :
    Kernel.Tied (handRules P) (· = .idle) FilesInv c := by
  refine hc.invariant ⟨_, hstart.filesInv, fun _ => rfl⟩ fun c e c' h _ hs => ?_
  refine Kernel.Tied.step (fun _ _ _ => True) ?_ c e c' h
    (fun _ call _ l hl => hl ▸ Hand.wp_prog N call) ?_ hs
  · intro s ls p a r s' hinv hpre _ hexec
    exact hinv.act hpre hexec
  · cases e <;> simp [Kernel.allows]

omit [Fintype P] in
theorem panic_fileclose {p : P} (hpre : (handRules P).pre a l)
    (h : s.exec p a = .panic (.fs .fileclose)) :
    ∃ f, a = .fs (.fileclose f) ∧ (s.fs.file f).ref = 0 := by
  unfold Files.exec at h
  split_ifs at h
  cases a with
  | fs a =>
    simp only [Files.act] at h
    split at h <;> cases h
    rename_i hfs
    cases Fs.exec_panic hfs with
    | called => exact absurd rfl hpre
    | @fileclose f hzero => exact ⟨f, rfl, hzero⟩
  | filedup f | allocproc np | reap np =>
    simp only [Files.act] at h
    split at h <;> cases h
  | _ => cases h

omit [Fintype P] in
theorem panic_filedup {p : P} (h : s.exec p a = .panic .filedup) :
    ∃ f, a = .filedup f ∧ (s.fs.file f).ref = 0 := by
  unfold Files.exec at h
  split_ifs at h
  cases a with
  | fs a | allocproc np | reap np =>
    simp only [Files.act] at h
    split at h <;> cases h
  | filedup f =>
    refine ⟨f, rfl, ?_⟩
    simp only [Files.act] at h
    split_ifs at h with hzero
    exact Nat.lt_one_iff.mp hzero
  | _ => cases h

/-- Reference counts are conserved in every interleaving: between calls they are the numbers of places
that refer, and neither `filedup` nor `fileclose` ever finds a file that is not open. -/
theorem refs_conserved {N : Nat} {s₀ : Files P} (hstart : s₀.Settled)
    {c : Pool P (Files P) (FileAct P) FileAct.Res Int}
    (hc : Reach (fileKernel P N).step (fun _ _ => True) ⟨s₀, fun _ => none⟩ c) :
    ((∀ p, c.thread p = none) → c.state.Balanced) ∧
    ∀ e, (fileKernel P N).step c e ≠ .panic .filedup ∧
      (fileKernel P N).step c e ≠ .panic (.fs .fileclose) := by
  obtain ⟨ls, hinv, hfit⟩ := tied_refs hstart hc
  refine ⟨fun hidle => hinv.balanced fun p => ?_, fun e => ⟨fun he => ?_, fun he => ?_⟩⟩
  · have hp := hfit p
    rwa [hidle p] at hp
  · obtain ⟨p, a, hnext, hexec⟩ := Kernel.step_panic he
    have hpre := (hfit p).pre hnext
    obtain ⟨f, rfl, hzero⟩ := panic_filedup hexec
    obtain ⟨fd, hslot⟩ := hpre
    have hpos := hinv.refs.slot_pos hslot
    omega
  · obtain ⟨p, a, hnext, hexec⟩ := Kernel.step_panic he
    have hpre := (hfit p).pre hnext
    obtain ⟨f, rfl, hzero⟩ := panic_fileclose hpre hexec
    have hpos := hinv.refs.hand_pos hpre
    omega

end Runs

/-- One process in the root of an empty image, and an unused slot. -/
def oneProcess : Files (Fin 2) where
  fs :=
    { (emptyImage (Fin 2) 8).setInode ROOTINO
        { (emptyImage (Fin 2) 8).inode ROOTINO with ref := 1 } with
      cwd := fun p => if p = 0 then some ROOTINO else none }
  pipe _ := false
  state p := if p = 0 then .runnable else .unused

theorem oneProcess_settled : oneProcess.Settled where
  balanced := by
    refine ⟨fun f => by simp [oneProcess, emptyImage, Fs.setInode], fun i => ?_⟩
    by_cases hi : i = ROOTINO
    · subst hi
      rfl
    · simp [oneProcess, emptyImage, Fs.setInode, hi, Ne.symm hi]
  unused := fun _ => rfl
  dead := by
    intro p hp
    refine ⟨if_neg fun hzero => hp (if_pos hzero), fun fd => rfl⟩

/-- `open("a", O_CREATE)`, `dup(0)`, `fork()` and, by the child, `close(1)`. -/
def dupForkClose : List (PoolEvent (Fin 2) (FileCall (Fin 2))) :=
  .start 0 (.fs (.open [97] O_CREATE)) :: List.replicate 23 (.run 0) ++
    .start 0 (.dup 0) :: List.replicate 5 (.run 0) ++
    .start 0 (.fork 1 true) :: List.replicate 25 (.run 0) ++
    .start 1 (.fs (.close 1)) :: List.replicate 4 (.run 1)

theorem refs_conserved_dupForkClose :
    ∃ c, runEvents (fileKernel (Fin 2) 8).step ⟨oneProcess, fun _ => none⟩ dupForkClose = .next c ∧
      (∀ p, c.thread p = none) ∧ (c.state.fs.file 0).ref = 3 ∧ c.state.Balanced := by
  obtain ⟨c, hrun, hidle, href⟩ := Outcome.exists_of_holds
    (Q := fun c => (∀ p, (c.thread p).isNone) ∧ (c.state.fs.file 0).ref = 3)
    (show (runEvents (fileKernel (Fin 2) 8).step ⟨oneProcess, fun _ => none⟩ dupForkClose).holds _ by
      decide +kernel)
  have hnone (p : Fin 2) : c.thread p = none := Option.isNone_iff_eq_none.mp (hidle p)
  have hc := Reach.of_runEvents .init _ (Along.of_forall (fun _ _ => trivial) _ _) hrun
  exact ⟨c, hrun, hnone, href, (refs_conserved oneProcess_settled hc).1 hnone⟩

end Xv6
