import Xv6.Dir.Tree

/-!
# Links and entries

The actions that change link counts, claim an inode or write a dirent keep the tree: each changes the
entries and the links under way by the same amount.
-/

namespace Xv6

open Function (update_of_ne update_self)

variable {P : Type}

variable {l : Ledger}

section LinkCounts

variable [Fintype P] [DecidableEq P] {N : Nat} {s s' : Fs P} {ls ls' : P → Ledger} {p : P} {i : Nat}

theorem sum_pend_update (ls : P → Ledger) (p : P) (l : Ledger) (j : Nat) :
    (∑ q, (Function.update ls p l q).pend.count j) + (ls p).pend.count j =
      (∑ q, (ls q).pend.count j) + l.pend.count j :=
  sum_update_balance (fun _ (l : Ledger) => l.pend.count j) ls p l

theorem TreeInv.relink (ht : TreeInv N s ls) {n : Inode P}
    (hn : n.type = (s.inode i).type ∧ n.ents = (s.inode i).ents ∧ n.ref = (s.inode i).ref ∧
      n.valid = (s.inode i).valid)
    (hheld : l.held = (ls p).held) (hrefs : l.refs = (ls p).refs) (hfresh : l.fresh = (ls p).fresh)
    (hftype : l.ftype = (ls p).ftype) (hgone : l.gone = (ls p).gone) (hput : l.put = (ls p).put)
    (hpend : ∀ j, j ≠ i → l.pend.count j = (ls p).pend.count j)
    (hbal : n.nlink + (ls p).pend.count i = (s.inode i).nlink + l.pend.count i)
    (hmax : n.nlink ≤ 32767) (howner : ∀ q, (ls q).fresh = some i → q = p)
    (hnew : (ls p).fresh = none ∨ l.pend ≠ 0) :
    TreeInv N (s.setInode i n) (Function.update ls p l) := by
  obtain ⟨htype, hents, href, hvalid⟩ := hn
  set s' := s.setInode i n with hs'
  set ls' := Function.update ls p l with hls'
  have htypes (j : Nat) : (s'.inode j).type = (s.inode j).type := Fs.field_setInode Inode.type htype j
  have hentss (j : Nat) : (s'.inode j).ents = (s.inode j).ents := Fs.field_setInode Inode.ents hents j
  have hrefss (j : Nat) : (s'.inode j).ref = (s.inode j).ref := Fs.field_setInode Inode.ref href j
  have hvalids (j : Nat) : (s'.inode j).valid = (s.inode j).valid :=
    Fs.field_setInode Inode.valid hvalid j
  have hother {j : Nat} (hj : j ≠ i) : s'.inode j = s.inode j := Fs.inode_setInode_ne s n hj
  have hr (q : P) : (ls' q).refs = (ls q).refs := Kernel.field_update Ledger.refs hrefs q
  have hsame : SameNames s s' ls ls' := by
    refine ⟨htypes, hentss, Kernel.field_update Ledger.fresh hfresh, Kernel.field_update Ledger.ftype hftype,
      fun q => (Kernel.field_update Ledger.gone hgone q).ge, fun q x _ hx => ?_⟩
    rw [show (ls' q).held = (ls q).held from Kernel.field_update Ledger.held hheld q]
    exact hx
  refine ht.sameNames hsame (fun j hj => ?_) (fun q c hq => ?_) (fun q c hq => ?_) fun j hj => ?_
  · rw [hrefss, drops_congr hput] at hj
    exact ht.alloc hj
  · refine ⟨by rw [hrefss, hr, drops_congr hput, (ht.fresh hq).ref], fun hp => ?_⟩
    by_cases hqp : q = p
    · subst hqp
      rw [hls', update_self] at hp
      rcases hnew with hnone | hne
      · simp [hq] at hnone
      · exact absurd hp hne
    · rw [hls', update_of_ne hqp] at hp
      have hci : c ≠ i := by
        rintro rfl
        exact hqp (howner q hq)
      rw [hother hci]
      exact (ht.fresh hq).nlink hp
  · have hg := ht.gone ((Kernel.field_update Ledger.gone hgone q) ▸ hq)
    rw [hr, hrefss, hvalids]
    exact ⟨hg, hg.held, hg.ref, hg.valid⟩
  · obtain ⟨hlinks, hle⟩ := ht.links hj
    have howed : owed N s' ls' j + (ls p).pend.count j = owed N s ls j + l.pend.count j := by
      have hsum := sum_pend_update ls p l j
      simp only [owed, Fs.inCount_congr hentss, Fs.subCount_congr hentss htypes, hls']
      omega
    by_cases hji : j = i
    · subst hji
      rw [show s'.inode j = n from Fs.inode_setInode_self s j n]
      exact ⟨by omega, hmax⟩
    · rw [hother hji]
      have heq := hpend j hji
      exact ⟨by omega, hle⟩

theorem short_eq {x : Int} (h0 : -32768 ≤ x) (h1 : x ≤ 32767) : short x = x := by
  unfold short
  omega

omit [DecidableEq P] in
theorem TreeInv.unnamed_of_free (ht : TreeInv N s ls) (hb : BaseInv N s ls)
    (hfree : (s.inode i).type = .free) (hi : i ≠ 0) {d : Nat} {e : Dirent}
    (he : e ∈ (s.inode d).ents) (hei : e.inum = i) : ¬ Kept ls d := by
  intro hkept
  have hdir : (s.inode d).type = .dir := by
    by_contra hdir
    simp [hb.nodes.leaf hdir] at he
  have hdi : d ≠ i := by
    rintro rfl
    simp [hdir] at hfree
  by_cases hfresh : ∃ q, (ls q).fresh = some d
  · obtain ⟨q, hq⟩ := hfresh
    rcases (ht.fresh hq).ents with hents | hents | ⟨dd, v, hents, hv, _⟩
    · simp [hents] at he
    · obtain rfl : e = ⟨d, dot⟩ := by simpa [hents] using he
      exact hdi hei
    · have hcase : e = ⟨d, dot⟩ ∨ e = ⟨dd, dotdot⟩ := by simpa [hents] using he
      rcases hcase with rfl | rfl
      · exact hdi hei
      · obtain rfl : dd = i := hei
        exact hb.locks.alloc hb.nodes hv hfree
  · obtain ⟨parent, hshape, hparent⟩ := ht.dots hdir fun q hq => hfresh ⟨q, hq⟩
    rcases hshape.entry he (hei ▸ hi) with rfl | rfl | hord
    · exact hdi hei
    · have hparent := hparent hkept
      have hpi : parent = i := hei
      subst hpi
      split at hparent
      · subst hparent
        simp [ht.root] at hfree
      · simp [hb.names_dir hparent] at hfree
    · exact ht.named ⟨e, he, hord, rfl⟩ (hei ▸ hfree)

theorem TreeInv.claim (ht : TreeInv N s ls) (hb : BaseInv N s ls) {type : InodeType}
    (hpre : (fsRules N).pre (.claim i type) (ls p)) (hfree : (s.inode i).type = .free) :
    TreeInv N (s.setInode i { s.inode i with type, major := 0, minor := 0, nlink := 0, ents := [] })
      (Function.update ls p { ls p with fresh := some i, ftype := type }) := by
  obtain ⟨-, htype, hi, hN, hnone, hgp, hpp, _⟩ := hpre
  have href : (s.inode i).ref = drops ls i := by
    have hle : ¬ drops ls i < (s.inode i).ref := fun hlt => ht.alloc hlt hfree
    have hrefs := hb.refs i
    omega
  have hnoref (q : P) : i ∉ (ls q).refs := fun hq => by
    have hlive := hb.ref_live hq
    omega
  have hents : (s.inode i).ents = [] := hb.nodes.leaf (by simp [hfree])
  have hunfresh : Unfresh ls i := fun q hq => (ht.fresh hq).alloc hfree
  have hroot : i ≠ ROOTINO := by
    rintro rfl
    simp [ht.root] at hfree
  set s' := s.setInode i { s.inode i with type, major := 0, minor := 0, nlink := 0, ents := [] } with hs'
  set ls' := Function.update ls p { ls p with fresh := some i, ftype := type } with hls'
  have hother {j : Nat} (hj : j ≠ i) : s'.inode j = s.inode j := Fs.inode_setInode_ne s _ hj
  have hself : s'.inode i = { s.inode i with type, major := 0, minor := 0, nlink := 0, ents := [] } :=
    Fs.inode_setInode_self s i _
  have hentss (j : Nat) : (s'.inode j).ents = (s.inode j).ents := Fs.field_setInode Inode.ents hents.symm j
  have hrefss (j : Nat) : (s'.inode j).ref = (s.inode j).ref := Fs.field_setInode Inode.ref (by rfl) j
  have hnames (d j : Nat) : (s'.view d).names j ↔ (s.view d).names j := by
    simp only [View.names, Fs.view, hentss]
  have hunnamed {d j : Nat} (h : (s.view d).names j) : j ≠ i := by
    rintro rfl
    exact ht.named h hfree
  have hg (q : P) : (ls' q).gone = (ls q).gone := Kernel.field_update Ledger.gone (by rfl) q
  have hr (q : P) : (ls' q).refs = (ls q).refs := Kernel.field_update Ledger.refs (by rfl) q
  have hp (q : P) : (ls' q).pend = (ls q).pend := Kernel.field_update Ledger.pend (by rfl) q
  have hh (q : P) : (ls' q).held = (ls q).held := Kernel.field_update Ledger.held (by rfl) q
  have hd (j : Nat) : drops ls' j = drops ls j := drops_congr (by rfl) j
  have hkept (d : Nat) : Kept ls' d ↔ Kept ls d := by simp only [Kept, hg]
  have hfresh {q : P} {c : Nat} : (ls' q).fresh = some c ↔ q = p ∧ c = i ∨ (ls q).fresh = some c := by
    by_cases hq : q = p
    · subst hq
      simp [hls', hnone, eq_comm]
    · simp [hls', hq]
  have hunfr {d : Nat} (hu : Unfresh ls' d) : Unfresh ls d ∧ d ≠ i := by
    refine ⟨fun q hq => hu q (hfresh.mpr (.inr hq)), ?_⟩
    rintro rfl
    exact hu p (hfresh.mpr (.inl ⟨rfl, rfl⟩))
  have hinCount (j : Nat) : s'.inCount N j = s.inCount N j := Fs.inCount_congr hentss j
  have hsubCount (j : Nat) : s'.subCount j = s.subCount j := by
    rw [Fs.subCount, Fs.subCount, hentss]
    refine List.countP_congr fun e he => ?_
    simp only [decide_eq_true_eq, and_congr_right_iff]
    intro hord
    rw [hother (hunnamed ⟨e, he, hord, rfl⟩)]
  have howed (j : Nat) : owed N s' ls' j = owed N s ls j := by
    simp only [owed, hinCount, hsubCount, hp]
  have hzero : owed N s ls i = 0 := by
    have hin : s.inCount N i = 0 :=
      Fs.inCount_eq_zero.mpr fun d _ hd => ht.named hd hfree
    have hpend (q : P) : (ls q).pend.count i = 0 :=
      Multiset.count_eq_zero.mpr fun hq => hnoref q ((hb.own q).pend hq)
    simp [owed, hin, Fs.subCount, hents, hroot, hpend]
  refine ⟨?_, fun {j} hj => ?_, fun {d j} h => ?_, fun {q c} hq => ?_, fun {q c} hq => ?_,
    fun {d} hd hu => ?_, fun {d} hd hu hk => ?_, fun {j} hj => ?_⟩
  · rw [hother hroot.symm]
    exact ht.root
  · rw [hrefss, hd] at hj
    have hji : j ≠ i := by
      rintro rfl
      omega
    rw [hother hji]
    exact ht.alloc hj
  · rw [hnames] at h
    rw [hother (hunnamed h)]
    exact ht.named h
  · rcases hfresh.mp hq with ⟨rfl, rfl⟩ | hold
    · refine ⟨hroot, by simp [hself, hls'], by simpa [hself] using htype, fun r hr => ?_, ?_,
        fun d e he hec => ?_, fun _ => by simp [hself], .inl (by simp [hself])⟩
      · rcases hfresh.mp hr with ⟨rfl, _⟩ | hr
        · rfl
        · exact absurd hr (hunfresh r)
      · rw [hrefss, hr, hd, href, Multiset.count_eq_zero.mpr (hnoref q), Nat.zero_add]
      · rw [hentss] at he
        rw [hkept]
        exact .inr (ht.unnamed_of_free hb hfree hi he hec)
    · have hf := ht.fresh hold
      have hci : c ≠ i := by
        rintro rfl
        exact hunfresh q hold
      have hqp : q ≠ p := by
        rintro rfl
        simp [hnone] at hold
      refine ⟨hf.notRoot, ?_, ?_, fun r hr => ?_, ?_, fun d e he hec => ?_, fun hpend => ?_, ?_⟩
      · rw [hother hci, hf.type, hls', update_of_ne hqp]
      · rw [hother hci]
        exact hf.alloc
      · rcases hfresh.mp hr with ⟨_, rfl⟩ | hr
        · exact absurd rfl hci
        · exact hf.sole r hr
      · rw [hrefss, hr, hd, hf.ref]
      · rw [hkept]
        exact hf.unnamed d e (hentss d ▸ he) hec
      · rw [hother hci]
        exact hf.nlink (hp q ▸ hpend)
      · rw [hentss, hh]
        exact hf.ents
  · rw [hg] at hq
    have hgc := ht.gone hq
    have hci : c ≠ i := by
      rintro rfl
      exact hgc.alloc hfree
    refine ⟨hgc.notRoot, ?_, by rw [hr]; exact hgc.held, by rw [hrefss, hgc.ref], ?_,
      by rw [hinCount, hgc.unnamed], fun j => by rw [hnames]; exact hgc.empty j, fun r hr => ?_⟩
    · rw [hother hci]
      exact hgc.alloc
    · rw [hother hci, hgc.valid]
    · exact (hfresh.mp hr).elim (fun h => hci h.2) (hgc.old r)
  · obtain ⟨hu, hdi⟩ := hunfr hu
    rw [hother hdi] at hd
    obtain ⟨parent, hshape, hparent⟩ := ht.dots hd hu
    refine ⟨parent, by simpa only [Fs.shaped, hentss] using hshape, fun hk => ?_⟩
    simpa only [hnames] using hparent ((hkept d).mp hk)
  · obtain ⟨hu, hdi⟩ := hunfr hu
    rw [hother hdi] at hd
    rw [hinCount]
    exact ht.entered hd hu ((hkept d).mp hk)
  · rw [howed]
    by_cases hji : j = i
    · subst hji
      rw [hself, hzero]
      exact ⟨rfl, by simp⟩
    · rw [hother hji] at hj ⊢
      exact ht.links hj

end LinkCounts

theorem putSlot_cons (x : Dirent) (ents : List Dirent) (slot : Nat) (de : Dirent) :
    putSlot (x :: ents) (slot + 1) de = x :: putSlot ents slot de := by
  simp only [putSlot, List.length_cons, Nat.add_lt_add_iff_right, List.set_cons_succ,
    List.cons_append]
  split <;> rfl

theorem emptySlot_cons {x : Dirent} (hx : x.inum ≠ 0) (ents : List Dirent) :
    emptySlot (x :: ents) = emptySlot ents + 1 := by
  rw [emptySlot, List.findIdx_cons, beq_eq_false_iff_ne.mpr hx]
  rfl

/-- The state after the dirents of the directory `d` are written, up to the ledger of the writer. -/
structure Wrote (s s' : Fs P) (ls ls' : P → Ledger) (p : P) (d : Nat) (ents : List Dirent) : Prop where
  self : s'.inode d = { s.inode d with ents }
  other : ∀ {j}, j ≠ d → s'.inode j = s.inode j
  ledger : ∀ {q}, q ≠ p → ls' q = ls q
  refs : (ls' p).refs = (ls p).refs
  put : (ls' p).put = (ls p).put
  held : ∀ {a v}, (a, v) ∈ (ls p).held → ∃ w, (a, w) ∈ (ls' p).held

namespace Wrote

variable {N : Nat} {s s' : Fs P} {ls ls' : P → Ledger} {p q : P} {c d : Nat} {ents : List Dirent}

section

variable (w : Wrote s s' ls ls' p d ents)
include w

theorem field {α : Type} (f : Inode P → α) (hf : f { s.inode d with ents } = f (s.inode d))
    (j : Nat) : f (s'.inode j) = f (s.inode j) := by
  by_cases hj : j = d
  · rw [hj, w.self, hf]
  · rw [w.other hj]

theorem type : ∀ j, (s'.inode j).type = (s.inode j).type :=
  w.field Inode.type rfl

theorem nlink : ∀ j, (s'.inode j).nlink = (s.inode j).nlink :=
  w.field Inode.nlink rfl

theorem ref : ∀ j, (s'.inode j).ref = (s.inode j).ref :=
  w.field Inode.ref rfl

theorem valid : ∀ j, (s'.inode j).valid = (s.inode j).valid :=
  w.field Inode.valid rfl

theorem ledger_refs (q : P) : (ls' q).refs = (ls q).refs := by
  by_cases hq : q = p
  · rw [hq, w.refs]
  · rw [w.ledger hq]

theorem view_other {j : Nat} (hj : j ≠ d) : s'.view j = s.view j := by
  rw [Fs.view, Fs.view, w.other hj]

theorem goneInv (hg : GoneInv N s ls q c) (hcd : c ≠ d) (hin : s'.inCount N c = 0)
    (hold : Unfresh ls' c) : GoneInv N s' ls' q c := by
  refine ⟨hg.notRoot, ?_, ?_, ?_, ?_, hin, fun i => ?_, hold⟩
  · rw [w.type]
    exact hg.alloc
  · rw [w.ledger_refs]
    exact hg.held
  · rw [w.ref, hg.ref]
  · rw [w.valid, hg.valid]
  · rw [w.view_other hcd]
    exact hg.empty i

variable [Fintype P]

theorem drops (j : Nat) : drops ls' j = Xv6.drops ls j := by
  refine Finset.sum_congr rfl fun q _ => ?_
  by_cases hq : q = p
  · rw [hq, w.put]
  · rw [w.ledger hq]

theorem freshInv (hf : FreshInv s ls q c) (hcd : c ≠ d) (hftype : (ls' q).ftype = (ls q).ftype)
    (hpend : (ls' q).pend = 0 → (ls q).pend = 0)
    (hsole : ∀ r, (ls' r).fresh = some c → (ls r).fresh = some c)
    (hkept : ∀ x, Kept ls' x → Kept ls x)
    (hnew : ∀ e ∈ ents, e.inum = c → e ∈ (s.inode d).ents) : FreshInv s' ls' q c := by
  refine ⟨hf.notRoot, ?_, ?_, fun r hr => hf.sole r (hsole r hr), ?_, fun x e he hec => ?_, fun hp => ?_,
    ?_⟩
  · rw [w.type, hf.type, hftype]
  · rw [w.type]
    exact hf.alloc
  · rw [w.ref, w.ledger_refs, w.drops, hf.ref]
  · have hold : e ∈ (s.inode x).ents := by
      by_cases hx : x = d
      · subst hx
        rw [w.self] at he
        exact hnew e he hec
      · rwa [w.other hx] at he
    exact (hf.unnamed x e hold hec).imp_right fun hnot hk => hnot (hkept x hk)
  · rw [w.nlink]
    exact hf.nlink (hpend hp)
  · rw [w.other hcd]
    rcases hf.ents with hents | hents | ⟨dd, v, hents, hv, hne⟩
    · exact .inl hents
    · exact .inr (.inl hents)
    · by_cases hq : q = p
      · subst hq
        obtain ⟨u, hu⟩ := w.held hv
        exact .inr (.inr ⟨dd, u, hents, hu, hne⟩)
      · rw [w.ledger hq]
        exact .inr (.inr ⟨dd, v, hents, hv, hne⟩)

end

end Wrote

section Write

variable [DecidableEq P] {N : Nat} {s s' : Fs P} {ls : P → Ledger} {p : P} {d slot : Nat}
  {de : Dirent}

theorem Wrote.of_update (s : Fs P) (ls : P → Ledger) (p : P) (d slot : Nat) (de : Dirent)
    (hrefs : l.refs = (ls p).refs) (hput : l.put = (ls p).put)
    (hheld : l.held = ((ls p).setView d ⟨(s.view d).type, putSlot (s.view d).ents slot de⟩).held) :
    Wrote s (s.setInode d { s.inode d with ents := putSlot (s.inode d).ents slot de }) ls
      (Function.update ls p l) p d (putSlot (s.inode d).ents slot de) where
  self := Fs.inode_setInode_self _ _ _
  other := Fs.inode_setInode_ne _ _
  ledger := fun hq => update_of_ne hq _ _
  refs := by rw [update_self, hrefs]
  put := by rw [update_self, hput]
  held {a v} hv := by
    rw [update_self, hheld]
    by_cases ha : a = d
    · subst ha
      exact ⟨_, Ledger.mem_setView.mpr (.inr ⟨rfl, rfl, v, hv⟩)⟩
    · exact ⟨v, Ledger.mem_setView.mpr (.inl ⟨ha, hv⟩)⟩

variable [Fintype P]

theorem TreeInv.writeDot (ht : TreeInv N s ls) (hb : BaseInv N s ls) (hmay : (ls p).MayDot d de)
    (hde : de.inum ≠ 0) (hslot : slot = emptySlot (s.inode d).ents)
    (hsearch : dirSearch de.name (s.inode d).ents 0 = none) :
    TreeInv N (s.setInode d { s.inode d with ents := putSlot (s.inode d).ents slot de })
      (Function.update ls p ((ls p).setView d ⟨(s.view d).type, putSlot (s.view d).ents slot de⟩)) := by
  obtain ⟨hfd, hcase⟩ := hmay
  have w := Wrote.of_update s ls p d slot de
    (l := (ls p).setView d ⟨(s.view d).type, putSlot (s.view d).ents slot de⟩) rfl rfl rfl
  set s' := s.setInode d { s.inode d with ents := putSlot (s.inode d).ents slot de } with hs'
  set ls' := Function.update ls p
    ((ls p).setView d ⟨(s.view d).type, putSlot (s.view d).ents slot de⟩) with hls'
  have hfd' := ht.fresh hfd
  have hf (q : P) : (ls' q).fresh = (ls q).fresh := Kernel.field_update Ledger.fresh (by rfl) q
  have hg (q : P) : (ls' q).gone = (ls q).gone := Kernel.field_update Ledger.gone (by rfl) q
  have hp (q : P) : (ls' q).pend = (ls q).pend := Kernel.field_update Ledger.pend (by rfl) q
  have ht' (q : P) : (ls' q).ftype = (ls q).ftype := Kernel.field_update Ledger.ftype (by rfl) q
  have hkept (x : Nat) : Kept ls' x ↔ Kept ls x := by simp only [Kept, hg]
  have hunfresh (x : Nat) : Unfresh ls' x ↔ Unfresh ls x := by simp only [Unfresh, hf]
  have hnot : ¬ de.ordinary := by
    rintro ⟨_, hdot, hdotdot⟩
    rcases hcase with h | h
    · exact hdot h.1
    · exact hdotdot h.1
  have hcount (q : Dirent → Bool) (hq : ∀ e : Dirent, ¬ e.ordinary → q e = false) :
      (putSlot (s.inode d).ents slot de).countP q = (s.inode d).ents.countP q := by
    rw [hslot, countP_putSlot_emptySlot (fun e he => hq e fun hord => hord.1 he), hq de hnot]
    simp
  have hinCount (j : Nat) : s'.inCount N j = s.inCount N j := by
    have hbal := Fs.inCount_setInode (s := s) (hb.nodes.range hfd'.alloc).2
      { s.inode d with ents := putSlot (s.inode d).ents slot de } j
    rw [hcount _ fun e he => by simp [he]] at hbal
    exact Nat.add_right_cancel hbal
  have hsubCount (j : Nat) : s'.subCount j = s.subCount j := by
    simp only [Fs.subCount, w.type]
    by_cases hj : j = d
    · rw [hj, w.self]
      exact hcount _ fun e he => by simp [he]
    · rw [w.other hj]
  have hnames (a j : Nat) : (s'.view a).names j ↔ (s.view a).names j := by
    by_cases ha : a = d
    · subst ha
      simp only [View.names, Fs.view, w.self]
      constructor
      · rintro ⟨e, he, hord, hj⟩
        rcases mem_putSlot he with rfl | he
        · exact absurd hord hnot
        · exact ⟨e, he, hord, hj⟩
      · rintro ⟨e, he, hord, hj⟩
        rw [hslot]
        exact ⟨e, (mem_putSlot_emptySlot hord.1).mpr (.inr he), hord, hj⟩
    · rw [w.view_other ha]
  -- The two writes bring the new directory from no dirent to both.
  have hshape : putSlot (s.inode d).ents slot de = [⟨d, dot⟩] ∨
      ∃ dd v, putSlot (s.inode d).ents slot de = [⟨d, dot⟩, ⟨dd, dotdot⟩] ∧
        (dd, v) ∈ (ls p).held ∧ dd ≠ d := by
    rw [dirSearch_eq_none] at hsearch
    rw [hslot]
    have hd : d ≠ 0 := (hb.nodes.range hfd'.alloc).1.ne'
    obtain ⟨inum, name⟩ := de
    rcases hcase with ⟨rfl, rfl⟩ | ⟨rfl, hne, ⟨v, hv, _⟩, u, k, hu, hk⟩
    · rcases hfd'.ents with hents | hents | ⟨dd, v, hents, _⟩
      · rw [hents]
        exact .inl rfl
      · rw [hents] at hsearch
        exact absurd rfl (hsearch ⟨inum, dot⟩ (by simp) hd)
      · rw [hents] at hsearch
        exact absurd rfl (hsearch ⟨inum, dot⟩ (by simp) hd)
    · rw [hb.locks.view hu] at hk
      rcases hfd'.ents with hents | hents | ⟨dd, w, hents, hw, _⟩
      · simp [Fs.view, hents, dirSearch] at hk
      · rw [hents, emptySlot_cons hd, putSlot_cons]
        exact .inr ⟨inum, v, rfl, hv, hne⟩
      · rw [hents] at hsearch
        have hdd := (hb.nodes.range (hb.locks.alloc hb.nodes hw)).1.ne'
        exact absurd rfl (hsearch ⟨dd, dotdot⟩ (by simp) hdd)
  -- Neither of the two entries names another new inode.
  have hentry {q : P} {c : Nat} (hq : (ls q).fresh = some c) (hdec : de.inum = c) : d = c := by
    rcases hcase with h | ⟨_, hne, ⟨v, hv, _⟩, _⟩
    · exact h.2.symm.trans hdec
    · obtain rfl := ht.fresh_owner hb hq (hdec ▸ (hb.own p).held hv)
      rw [hfd] at hq
      exact Option.some.inj hq
  refine ⟨(w.type _).trans ht.root, fun {j} hj => ?_, fun {a j} h => ?_, fun {q c} hq => ?_,
    fun {q c} hq => ?_, fun {x} hx hu => ?_, fun {x} hx hu hk => ?_, fun {j} hj => ?_⟩
  · rw [w.drops, w.ref] at hj
    rw [w.type]
    exact ht.alloc hj
  · rw [w.type]
    exact ht.named ((hnames a j).mp h)
  · rw [hf] at hq
    have hfc := ht.fresh hq
    by_cases hcd : c = d
    · subst hcd
      obtain rfl := hfc.sole p hfd
      refine ⟨hfc.notRoot, by rw [w.type, ht', hfc.type], by rw [w.type]; exact hfc.alloc,
        fun r hr => hfc.sole r (hf r ▸ hr), by rw [w.ref, w.ledger_refs, w.drops, hfc.ref],
        fun x e he hec => ?_, fun hpend => by rw [w.nlink]; exact hfc.nlink (hp p ▸ hpend), ?_⟩
      · by_cases hx : x = c
        · exact .inl hx
        · rw [w.other hx] at he
          rw [hkept]
          exact hfc.unnamed x e he hec
      · rw [w.self]
        rcases hshape with hents | ⟨dd, v, hents, hv, hne⟩
        · exact .inr (.inl hents)
        · obtain ⟨u, hu⟩ := w.held hv
          exact .inr (.inr ⟨dd, u, hents, hu, hne⟩)
    · refine w.freshInv hfc hcd (ht' q) (fun h => hp q ▸ h) (fun r hr => hf r ▸ hr)
        (fun x => (hkept x).mp) fun e he hec => ?_
      rcases mem_putSlot he with rfl | he
      · exact absurd (hentry hq hec).symm hcd
      · exact he
  · rw [hg] at hq
    have hgc := ht.gone hq
    have hcd : c ≠ d := by
      rintro rfl
      exact hgc.old p hfd
    exact w.goneInv hgc hcd (by rw [hinCount, hgc.unnamed]) ((hunfresh c).mpr hgc.old)
  · rw [hunfresh] at hu
    have hxd : x ≠ d := by
      rintro rfl
      exact hu p hfd
    obtain ⟨parent, hshaped, hparent⟩ := ht.dots (w.type x ▸ hx) hu
    refine ⟨parent, by simpa only [Fs.shaped, w.other hxd] using hshaped, fun hk => ?_⟩
    simpa only [hnames] using hparent ((hkept x).mp hk)
  · rw [hinCount]
    exact ht.entered (w.type x ▸ hx) ((hunfresh x).mp hu) ((hkept x).mp hk)
  · have howed : owed N s' ls' j = owed N s ls j := by simp only [owed, hinCount, hsubCount, hp]
    rw [w.nlink, howed]
    exact ht.links (w.type j ▸ hj)

omit [DecidableEq P] in
theorem TreeInv.fresh_inCount (ht : TreeInv N s ls) {c : Nat} (hc : (ls p).fresh = some c) :
    s.inCount N c = 0 := by
  refine Fs.inCount_eq_zero.mpr fun a _ hnames => ?_
  obtain ⟨e, he, hord, heq⟩ := hnames
  rcases (ht.fresh hc).unnamed a e he heq with rfl | hnot
  · rcases (ht.fresh hc).ents with hents | hents | ⟨dd, v, hents, _⟩
    · simp [Fs.view, hents] at he
    · obtain rfl : e = ⟨a, dot⟩ := by simpa [Fs.view, hents] using he
      exact hord.2.1 rfl
    · have hcase : e = ⟨a, dot⟩ ∨ e = ⟨dd, dotdot⟩ := by simpa [Fs.view, hents] using he
      rcases hcase with rfl | rfl
      · exact hord.2.1 rfl
      · exact hord.2.2 rfl
  · simp only [Kept, not_forall, not_not] at hnot
    obtain ⟨q, hq⟩ := hnot
    exact (ht.gone hq).empty c ⟨e, he, hord, heq⟩

theorem TreeInv.enter (ht : TreeInv N s ls) (hb : BaseInv N s ls) {c : Nat}
    (hrefs : l.refs = (ls p).refs)
    (hheld : l.held = ((ls p).setView d ⟨(s.view d).type, putSlot (s.view d).ents slot de⟩).held)
    (hput : l.put = (ls p).put) (hgone : l.gone = ∅) (hfresh : l.fresh = none) (hde : de.ordinary)
    (hdec : de.inum = c)
    (hslot : slot = emptySlot (s.inode d).ents) (hdir : (s.inode d).type = .dir)
    (hdu : Unfresh ls d) (hdk : Kept ls d) (hgp : (ls p).gone = ∅)
    (hc : (s.inode c).type ≠ .free) (hck : Kept ls c) (hcown : ∀ q, (ls q).fresh = some c → q = p)
    (hfp : ∀ x, (ls p).fresh = some x → x = c)
    (hcdir : (s.inode c).type = .dir →
      (ls p).fresh = some c ∧ (s.inode c).ents = [⟨c, dot⟩, ⟨d, dotdot⟩])
    (hpend : ∀ j, (ls p).pend.count j = l.pend.count j + (if c = j then 1 else 0) +
      if j = d ∧ (s.inode c).type = .dir then 1 else 0) :
    TreeInv N (s.setInode d { s.inode d with ents := putSlot (s.inode d).ents slot de })
      (Function.update ls p l) := by
  have w := Wrote.of_update s ls p d slot de hrefs hput hheld
  obtain ⟨hdpos, hdN⟩ := hb.nodes.range (i := d) (by simp [hdir])
  set s' := s.setInode d { s.inode d with ents := putSlot (s.inode d).ents slot de } with hs'
  set ls' := Function.update ls p l with hls'
  have hself : ls' p = l := update_self _ _ _
  have hcd : c ≠ d := by
    rintro rfl
    exact hdu p (hcdir hdir).1
  have hfq {q : P} {x : Nat} (hq : (ls' q).fresh = some x) : q ≠ p ∧ (ls q).fresh = some x := by
    have hqp : q ≠ p := by
      rintro rfl
      simp [hself, hfresh] at hq
    rw [w.ledger hqp] at hq
    exact ⟨hqp, hq⟩
  have hgq {q : P} : (ls' q).gone = (ls q).gone := by
    by_cases hqp : q = p
    · rw [hqp, hself, hgone, hgp]
    · rw [w.ledger hqp]
  have hkept (x : Nat) : Kept ls' x ↔ Kept ls x := by simp only [Kept, hgq]
  have hunfresh {x : Nat} (hu : Unfresh ls' x) (hxc : x ≠ c) : Unfresh ls x := by
    intro q hq
    by_cases hqp : q = p
    · subst hqp
      exact hxc (hfp x hq)
    · exact hu q (by rwa [w.ledger hqp])
  have hnames (a j : Nat) : (s'.view a).names j ↔ (s.view a).names j ∨ a = d ∧ j = c := by
    by_cases ha : a = d
    · subst ha
      simp only [View.names, Fs.view, w.self, hslot]
      constructor
      · rintro ⟨e, he, hord, rfl⟩
        rcases (mem_putSlot_emptySlot hord.1).mp he with rfl | he
        · exact .inr ⟨trivial, hdec⟩
        · exact .inl ⟨e, he, hord, rfl⟩
      · rintro (⟨e, he, hord, hj⟩ | ⟨_, rfl⟩)
        · exact ⟨e, (mem_putSlot_emptySlot hord.1).mpr (.inr he), hord, hj⟩
        · exact ⟨de, (mem_putSlot_emptySlot hde.1).mpr (.inl rfl), hde, hdec⟩
    · rw [w.view_other ha]
      simp [ha]
  have hinCount (j : Nat) : s'.inCount N j = s.inCount N j + if c = j then 1 else 0 := by
    have hbal := Fs.inCount_setInode (s := s) hdN
      { s.inode d with ents := putSlot (s.inode d).ents slot de } j
    simp only [hslot] at hbal
    rw [countP_putSlot_emptySlot (fun e he => by simp [Dirent.ordinary, he])] at hbal
    simp only [hde, hdec, true_and, decide_eq_true_eq] at hbal
    simp only [hs', hslot]
    omega
  have hsubCount (j : Nat) :
      s'.subCount j = s.subCount j + if j = d ∧ (s.inode c).type = .dir then 1 else 0 := by
    simp only [Fs.subCount, w.type]
    by_cases hj : j = d
    · subst hj
      rw [w.self]
      simp only [hslot]
      rw [countP_putSlot_emptySlot (fun e he => by simp [Dirent.ordinary, he])]
      simp [hde, hdec]
    · rw [w.other hj]
      simp [hj]
  refine ⟨(w.type _).trans ht.root, fun {j} hj => ?_, fun {a j} h => ?_, fun {q x} hq => ?_,
    fun {q x} hq => ?_, fun {x} hx hu => ?_, fun {x} hx hu hk => ?_, fun {j} hj => ?_⟩
  · rw [w.drops, w.ref] at hj
    rw [w.type]
    exact ht.alloc hj
  · rw [w.type]
    rcases (hnames a j).mp h with h | ⟨_, rfl⟩
    · exact ht.named h
    · exact hc
  · obtain ⟨hqp, hq⟩ := hfq hq
    have hxc : x ≠ c := by
      rintro rfl
      exact hqp (hcown q hq)
    have hxd : x ≠ d := by
      rintro rfl
      exact hdu q hq
    have hsame := w.ledger hqp
    refine w.freshInv (ht.fresh hq) hxd (by rw [hsame]) (fun h => hsame ▸ h)
      (fun r hr => (hfq hr).2) (fun y => (hkept y).mp) fun e he hex => ?_
    rcases mem_putSlot he with rfl | he
    · exact absurd (hex.symm.trans hdec) hxc
    · exact he
  · rw [hgq] at hq
    have hg := ht.gone hq
    have hxc : c ≠ x := by
      rintro rfl
      exact hck q hq
    have hxd : x ≠ d := by
      rintro rfl
      exact hdk q hq
    exact w.goneInv hg hxd (by rw [hinCount, hg.unnamed, if_neg hxc]) fun r hr => hg.old r (hfq hr).2
  · rw [w.type] at hx
    by_cases hxc : x = c
    · subst hxc
      obtain ⟨hfx, hents⟩ := hcdir hx
      refine ⟨d, ⟨[], by rw [w.other hcd, hents], by simp⟩, fun _ => ?_⟩
      rw [if_neg (ht.fresh hfx).notRoot, hnames]
      exact .inr ⟨rfl, rfl⟩
    · obtain ⟨parent, hshaped, hparent⟩ := ht.dots hx (hunfresh hu hxc)
      refine ⟨parent, ?_, fun hk => ?_⟩
      · by_cases hxd : x = d
        · subst hxd
          obtain ⟨rest, hents, hrest⟩ := hshaped
          have hpar : parent ≠ 0 := by
            have hparent := hparent hdk
            split at hparent
            · rw [hparent]
              decide
            · have hpd := hb.names_dir hparent
              exact (hb.nodes.range (by simp [hpd])).1.ne'
          refine ⟨putSlot rest (emptySlot rest) de, ?_, fun e he => ?_⟩
          · rw [w.self, hslot, hents, emptySlot_cons hdpos.ne', emptySlot_cons hpar, putSlot_cons,
              putSlot_cons]
          · rcases mem_putSlot he with rfl | he
            · exact .inr hde
            · exact hrest e he
        · simpa only [Fs.shaped, w.other hxd] using hshaped
      · have hparent := hparent ((hkept x).mp hk)
        split
        · rwa [if_pos ‹_›] at hparent
        · rw [if_neg ‹_›] at hparent
          rw [hnames]
          exact .inl hparent
  · rw [w.type] at hx
    rw [hinCount]
    by_cases hxc : x = c
    · subst hxc
      obtain ⟨hfx, _⟩ := hcdir hx
      rw [ht.fresh_inCount hfx, if_neg (ht.fresh hfx).notRoot]
      simp
    · rw [if_neg (Ne.symm hxc), Nat.add_zero]
      exact ht.entered hx (hunfresh hu hxc) ((hkept x).mp hk)
  · have howed : owed N s' ls' j = owed N s ls j := by
      have hsum := sum_pend_update ls p l j
      have hpj := hpend j
      simp only [owed, hinCount, hsubCount, hls']
      omega
    rw [w.nlink, howed]
    exact ht.links (w.type j ▸ hj)

omit [Fintype P] [DecidableEq P] in
theorem Fs.shaped.empty {parent : Nat} (h : s.shaped d parent)
    (hempty : isdirempty (s.inode d).ents = true) (i : Nat) : ¬ (s.view d).names i := by
  obtain ⟨rest, hents, _⟩ := h
  rw [isdirempty, hents] at hempty
  simp only [List.drop_succ_cons, List.drop_zero, List.all_eq_true, beq_iff_eq] at hempty
  rintro ⟨e, he, hord, _⟩
  rw [Fs.view, hents] at he
  simp only [List.mem_cons] at he
  rcases he with rfl | rfl | he
  · exact hord.2.1 rfl
  · exact hord.2.2 rfl
  · exact hord.1 (hempty e he)

omit [Fintype P] [DecidableEq P] in
theorem Fs.shaped.clear {parent : Nat} {old : Dirent} (h : s.shaped d parent)
    (hold : (s.inode d).ents[slot]? = some old) (hord : old.ordinary) (hde : de.inum = 0) :
    ∃ rest, putSlot (s.inode d).ents slot de = ⟨d, dot⟩ :: ⟨parent, dotdot⟩ :: rest ∧
      ∀ e ∈ rest, e.inum = 0 ∨ e.ordinary := by
  obtain ⟨rest, hents, hrest⟩ := h
  rw [hents] at hold ⊢
  match slot with
  | 0 =>
    obtain rfl : ⟨d, dot⟩ = old := by simpa using hold
    exact absurd rfl hord.2.1
  | 1 =>
    obtain rfl : ⟨parent, dotdot⟩ = old := by simpa using hold
    exact absurd rfl hord.2.2
  | k + 2 =>
    refine ⟨putSlot rest k de, by rw [putSlot_cons, putSlot_cons], fun e he => ?_⟩
    rcases mem_putSlot he with rfl | he
    · exact .inl hde
    · exact hrest e he

theorem TreeInv.clear (ht : TreeInv N s ls) (hb : BaseInv N s ls) {old : Dirent} {w : View}
    (hrefs : l.refs = (ls p).refs)
    (hheld : l.held = ((ls p).setView d ⟨(s.view d).type, putSlot (s.view d).ents slot de⟩).held)
    (hput : l.put = (ls p).put) (hfresh : l.fresh = none) (hfp : (ls p).fresh = none)
    (hgp : (ls p).gone = ∅)
    (hdp : d ∈ (ls p).refs) (hdir : (s.inode d).type = .dir) (hde : de.inum = 0)
    (hold : (s.inode d).ents[slot]? = some old) (hord : old.ordinary) (hcd : old.inum ≠ d)
    (hw : (old.inum, w) ∈ (ls p).held)
    (hgone : l.gone = if (s.inode old.inum).type = .dir then {old.inum} else ∅)
    (hempty : (s.inode old.inum).type = .dir → isdirempty (s.inode old.inum).ents = true)
    (hsole : (s.inode old.inum).type = .dir → (s.inode old.inum).ref = 1)
    (hpend : ∀ j, l.pend.count j = (ls p).pend.count j + (if old.inum = j then 1 else 0) +
      if j = d ∧ (s.inode old.inum).type = .dir then 1 else 0) :
    TreeInv N (s.setInode d { s.inode d with ents := putSlot (s.inode d).ents slot de })
      (Function.update ls p l) := by
  have W := Wrote.of_update s ls p d slot de hrefs hput hheld
  obtain ⟨hdpos, hdN⟩ := hb.nodes.range (i := d) (by simp [hdir])
  have hcp := (hb.own p).held hw
  have hunfr {x : Nat} (hx : x ∈ (ls p).refs) : Unfresh ls x := by
    intro q hq
    obtain rfl := ht.fresh_owner hb hq hx
    simp [hfp] at hq
  have hdk := ht.kept_of_ref hb hgp hdp
  have hck := ht.kept_of_ref hb hgp hcp
  have hcnames : (s.view d).names old.inum := ⟨old, List.mem_of_getElem? hold, hord, rfl⟩
  have hcroot : old.inum ≠ ROOTINO := by
    intro hroot
    have hpos := hb.inCount_pos hcnames
    rw [hroot] at hpos hcp
    have hzero := ht.entered ht.root (hunfr hcp) (hroot ▸ hck)
    rw [if_pos rfl] at hzero
    omega
  set c := old.inum with hc
  set s' := s.setInode d { s.inode d with ents := putSlot (s.inode d).ents slot de } with hs'
  set ls' := Function.update ls p l with hls'
  have hself : ls' p = l := update_self _ _ _
  have hf (q : P) : (ls' q).fresh = (ls q).fresh :=
    Kernel.field_update Ledger.fresh (hfresh.trans hfp.symm) q
  have hunfresh (x : Nat) : Unfresh ls' x ↔ Unfresh ls x := by simp only [Unfresh, hf]
  have hkept {x : Nat} (hk : Kept ls' x) : Kept ls x := by
    intro q hq
    by_cases hqp : q = p
    · subst hqp
      simp [hgp] at hq
    · exact hk q (by rwa [W.ledger hqp])
  have hne {x : Nat} (hx : (s.inode x).type = .dir) (hk : Kept ls' x) : x ≠ c := by
    rintro rfl
    exact hk p (by rw [hself, hgone, if_pos hx]; exact Finset.mem_singleton_self _)
  have hnames_of {a j : Nat} (h : (s'.view a).names j) : (s.view a).names j := by
    by_cases ha : a = d
    · subst ha
      obtain ⟨e, he, heord, hj⟩ := h
      simp only [Fs.view, W.self] at he
      rcases mem_putSlot he with rfl | he
      · exact absurd hde heord.1
      · exact ⟨e, he, heord, hj⟩
    · rwa [W.view_other ha] at h
  have hnames {a j : Nat} (h : (s.view a).names j) (hj : j ≠ c) : (s'.view a).names j := by
    by_cases ha : a = d
    · subst ha
      obtain ⟨e, he, heord, rfl⟩ := h
      refine ⟨e, ?_, heord, rfl⟩
      obtain ⟨k, hk⟩ := List.mem_iff_getElem?.mp he
      have hks : slot ≠ k := by
        rintro rfl
        exact hj (congrArg Dirent.inum (Option.some.inj (hk.symm.trans hold)))
      simp only [Fs.view, W.self, putSlot]
      rw [if_pos (List.getElem?_eq_some_iff.mp hold).1]
      exact List.mem_iff_getElem?.mpr ⟨k, by rw [List.getElem?_set_ne hks]; exact hk⟩
    · rwa [W.view_other ha]
  have hinCount (j : Nat) : s'.inCount N j + (if c = j then 1 else 0) = s.inCount N j := by
    have hbal : s'.inCount N j + (s.inode d).ents.countP (fun e => e.ordinary ∧ e.inum = j) =
        s.inCount N j +
          (putSlot (s.inode d).ents slot de).countP (fun e => e.ordinary ∧ e.inum = j) :=
      Fs.inCount_setInode hdN _ j
    have hclear := countP_putSlot_clear (q := fun e => decide (e.ordinary ∧ e.inum = j))
      (by simp [Dirent.ordinary, hde] : decide (de.ordinary ∧ de.inum = j) = false) hold
    simp only [hord, true_and, decide_eq_true_eq, ← hc] at hclear
    omega
  have hsubCount (j : Nat) :
      s'.subCount j + (if j = d ∧ (s.inode c).type = .dir then 1 else 0) = s.subCount j := by
    simp only [Fs.subCount, W.type]
    by_cases hj : j = d
    · subst hj
      rw [W.self]
      have hclear := countP_putSlot_clear
        (q := fun e => decide (e.ordinary ∧ (s.inode e.inum).type = .dir))
        (by simp [Dirent.ordinary, hde] : decide (de.ordinary ∧ (s.inode de.inum).type = .dir) = false)
        hold
      simpa [hord] using hclear
    · rw [W.other hj]
      simp [hj]
  refine ⟨(W.type _).trans ht.root, fun {j} hj => ?_, fun {a j} h => ?_, fun {q x} hq => ?_,
    fun {q x} hq => ?_, fun {x} hx hu => ?_, fun {x} hx hu hk => ?_, fun {j} hj => ?_⟩
  · rw [W.drops, W.ref] at hj
    rw [W.type]
    exact ht.alloc hj
  · rw [W.type]
    exact ht.named (hnames_of h)
  · rw [hf] at hq
    have hqp : q ≠ p := by
      rintro rfl
      simp [hfp] at hq
    have hsame := W.ledger hqp
    have hxd : x ≠ d := by
      rintro rfl
      exact hunfr hdp q hq
    refine W.freshInv (ht.fresh hq) hxd (by rw [hsame]) (fun h => hsame ▸ h)
      (fun r hr => hf r ▸ hr) (fun y => hkept) fun e he hex => ?_
    rcases mem_putSlot he with rfl | he
    · have hpos := (hb.nodes.range (ht.fresh hq).alloc).1
      omega
    · exact he
  · by_cases hqp : q = p
    · subst hqp
      rw [hself, hgone] at hq
      split at hq
      · rename_i hcdir
        obtain rfl : x = c := Finset.mem_singleton.mp hq
        obtain ⟨parent, hshaped, _⟩ := ht.dots hcdir (hunfr hcp)
        refine ⟨hcroot, by rw [W.type, hcdir]; decide, by rw [W.ledger_refs]; exact hcp,
          by rw [W.ref, hsole hcdir], by rw [W.valid, hb.locks.valid hw], ?_, fun i => ?_,
          (hunfresh c).mpr (hunfr hcp)⟩
        · have hone := ht.entered hcdir (hunfr hcp) hck
          have hbal := hinCount c
          rw [if_neg hcroot] at hone
          rw [if_pos rfl] at hbal
          omega
        · rw [W.view_other hcd]
          exact hshaped.empty (hempty hcdir) i
      · exact absurd hq (Finset.notMem_empty x)
    · rw [W.ledger hqp] at hq
      have hg := ht.gone hq
      have hxd : x ≠ d := by
        rintro rfl
        exact hdk q hq
      have hxc : c ≠ x := by
        rintro rfl
        exact hck q hq
      have hbal := hinCount x
      rw [if_neg hxc, hg.unnamed] at hbal
      exact W.goneInv hg hxd hbal ((hunfresh x).mpr hg.old)
  · rw [W.type] at hx
    rw [hunfresh] at hu
    obtain ⟨parent, hshaped, hparent⟩ := ht.dots hx hu
    refine ⟨parent, ?_, fun hk => ?_⟩
    · by_cases hxd : x = d
      · subst hxd
        rw [Fs.shaped, W.self]
        exact hshaped.clear hold hord hde
      · simpa only [Fs.shaped, W.other hxd] using hshaped
    · have hparent := hparent (hkept hk)
      split
      · rwa [if_pos ‹_›] at hparent
      · rw [if_neg ‹_›] at hparent
        exact hnames hparent (hne hx hk)
  · rw [W.type] at hx
    have hbal := hinCount x
    rw [if_neg (hne hx hk).symm, Nat.add_zero] at hbal
    rw [hbal]
    exact ht.entered hx ((hunfresh x).mp hu) (hkept hk)
  · have howed : owed N s' ls' j = owed N s ls j := by
      have hsum := sum_pend_update ls p l j
      have hpj := hpend j
      have hin := hinCount j
      have hsub := hsubCount j
      simp only [owed, hls']
      omega
    rw [W.nlink, howed]
    exact ht.links (W.type j ▸ hj)

end Write

end Xv6
