import Xv6.Dir.Alone

/-!
# Path names in a tree at rest

What `namei` and `nameiparent` find while no other process runs: the walk through the directories
along the elements of the path.
-/

namespace Xv6

open Rules (wp_bind)

/-- What stands between the slashes, each cut to `DIRSIZ` bytes -/
def components (path : Path) : List Name :=
  ((path.splitOn slash).filter (· ≠ [])).map (·.take DIRSIZ)

theorem components_nil : components [] = [] := rfl

theorem components_slash (path : Path) : components (slash :: path) = components path := by
  rw [components, List.splitOn_cons_eq_if_modifyHead, if_pos (beq_self_eq_true slash)]
  rfl

theorem components_dropWhile (path : Path) :
    components (path.dropWhile (· == slash)) = components path := by
  induction path with
  | nil => rfl
  | cons c path ih =>
    by_cases hc : c = slash
    · rw [List.dropWhile_cons_of_pos (by simpa using hc), ih, hc, components_slash]
    · rw [List.dropWhile_cons_of_neg (by simpa using hc)]

theorem components_elem {w path : Path} (hw : slash ∉ w) (hne : w ≠ [])
    (hpath : ∀ c ∈ path.head?, c = slash) :
    components (w ++ path) = w.take DIRSIZ :: components path := by
  cases path with
  | nil =>
    rw [List.append_nil, components, List.splitOn_eq_singleton hw]
    simp [hne, components_nil]
  | cons c path =>
    rw [hpath c rfl, components_slash, components, List.splitOn_append_cons_self_of_not_mem hw]
    simp [hne, components]

theorem components_takeWhile {s : Path} {c : UInt8} (hs : s.head? = some c) (hc : c ≠ slash) :
    components s =
      (s.takeWhile (· != slash)).take DIRSIZ :: components (s.dropWhile (· != slash)) := by
  have hw : slash ∉ s.takeWhile (· != slash) := by
    intro hmem
    have hbyte := List.all_eq_true.mp List.all_takeWhile slash hmem
    simp at hbyte
  have hne : s.takeWhile (· != slash) ≠ [] := by
    cases s with
    | nil => cases hs
    | cons d s =>
      obtain rfl : d = c := Option.some.inj hs
      rw [List.takeWhile_cons_of_pos (by simpa using hc)]
      exact List.cons_ne_nil _ _
  have hrest : ∀ d ∈ (s.dropWhile (· != slash)).head?, d = slash := by
    intro d hd
    have hhead := List.head?_dropWhile_not (· != slash) s
    rw [hd] at hhead
    simpa using hhead
  rw [← components_elem hw hne hrest, List.takeWhile_append_dropWhile]

theorem components_skipelem (path : Path) :
    components path =
      match skipelem path with
      | none => []
      | some (name, rest) => name :: components rest := by
  rw [← components_dropWhile path, skipelem]
  by_cases hs : path.dropWhile (· == slash) = []
  · simp only [hs, if_true, components_nil]
  · obtain ⟨c, hc⟩ := Option.ne_none_iff_exists'.mp (mt List.head?_eq_none_iff.mp hs)
    have hne : c ≠ slash := by
      have hhead := List.head?_dropWhile_not (· == slash) path
      rw [hc] at hhead
      simpa using hhead
    simp only [if_neg hs, components_dropWhile ((path.dropWhile (· == slash)).dropWhile (· != slash))]
    exact components_takeWhile hc hne

theorem pathElems_components (path : Path) : pathElems path = components path := by
  induction hlen : path.length using Nat.strong_induction_on generalizing path with
  | _ n ih =>
    rw [pathElems_eq, components_skipelem]
    cases hs : skipelem path with
    | none => rfl
    | some e =>
      have hlt := skipelem_length hs
      rw [hlen] at hlt
      simp only [ih _ hlt e.2 rfl]

variable {names : List Name}

section

variable {P : Type}

/-- `dirlookup` in a tree at rest; nothing is found in what is not a directory. -/
def Fs.lookup (s : Fs P) (i : Nat) (name : Name) : Option Nat :=
  if (s.inode i).type = .dir then (dirSearch name (s.inode i).ents 0).map Prod.fst else none

def Fs.walk (s : Fs P) (i : Nat) (names : List Name) : Option Nat := names.foldlM s.lookup i

variable {s : Fs P}

theorem Fs.lookup_of_dir {i : Nat} (hdir : (s.inode i).type = .dir) (name : Name) :
    s.lookup i name = (dirSearch name (s.inode i).ents 0).map Prod.fst := if_pos hdir

theorem Fs.walk_cons (i : Nat) (name : Name) (names : List Name) :
    s.walk i (name :: names) = (s.lookup i name).bind (s.walk · names) := by
  rw [walk, List.foldlM_cons]
  rfl

theorem Fs.resolve_false (names : List Name) (i : Nat) (name : Name) :
    (s.resolve false names i name).map Prod.fst = s.walk i names := by
  induction names generalizing i name with
  | nil => rfl
  | cons e rest ih =>
    rw [resolve, walk_cons, lookup]
    by_cases hdir : (s.inode i).type = .dir
    · simp only [hdir, ne_eq, not_true_eq_false, if_false, if_true, Bool.false_and,
        Bool.false_eq_true]
      cases dirSearch e (s.inode i).ents 0 with
      | none => rfl
      | some next => exact ih next.1 e
    · simp [hdir]

theorem Fs.resolve_true (names : List Name) (i : Nat) (name : Name) :
    s.resolve true names i name =
      names.getLast?.bind fun e =>
        (s.walk i names.dropLast).bind fun d => if (s.inode d).type = .dir then some (d, e) else none := by
  induction names generalizing i name with
  | nil => rfl
  | cons e rest ih =>
    rw [resolve]
    by_cases hdir : (s.inode i).type = .dir
    · cases rest with
      | nil => simp [hdir, walk]
      | cons e' rest =>
        rw [List.dropLast_cons_cons, walk_cons, lookup_of_dir hdir, List.getLast?_cons_cons]
        simp only [hdir, ne_eq, not_true_eq_false, if_false, List.isEmpty_cons, Bool.and_false,
          Bool.false_eq_true]
        cases dirSearch e (s.inode i).ents 0 with
        | none => cases (e' :: rest).getLast? <;> rfl
        | some next => exact ih next.1 e
    · cases rest with
      | nil => simp [hdir, walk]
      | cons e' rest =>
        rw [List.dropLast_cons_cons, walk_cons, lookup]
        simp [hdir]

theorem Fs.resolve_true_eq_none {i : Nat} {name : Name} :
    s.resolve true names i name = none ↔
      names = [] ∨ ∀ d, s.walk i names.dropLast = some d → (s.inode d).type ≠ .dir := by
  rw [resolve_true]
  cases names with
  | nil => simp
  | cons e rest =>
    rw [List.getLast?_eq_some_getLast (List.cons_ne_nil e rest), Option.bind_some]
    cases s.walk i (e :: rest).dropLast with
    | none => simp
    | some d => simp

theorem Fs.resolve_true_eq_some {i d : Nat} {name e : Name}
    (h : s.resolve true names i name = some (d, e)) :
    s.walk i names.dropLast = some d ∧ (s.inode d).type = .dir ∧ s.lookup d e = s.walk i names := by
  rw [resolve_true, Option.bind_eq_some_iff] at h
  obtain ⟨e', hlast, h⟩ := h
  obtain ⟨d', hwalk, h⟩ := Option.bind_eq_some_iff.mp h
  split_ifs at h with hdir
  obtain ⟨rfl, rfl⟩ := Prod.mk.inj (Option.some.inj h)
  obtain ⟨init, rfl⟩ := List.getLast?_eq_some_iff.mp hlast
  rw [List.dropLast_concat] at hwalk ⊢
  refine ⟨hwalk, hdir, ?_⟩
  have hfold : s.walk i (init ++ [e']) = (s.walk i init).bind fun d => s.walk d [e'] :=
    List.foldlM_append ..
  rw [hfold, hwalk, Option.bind_some, walk_cons]
  cases s.lookup d' e' <;> rfl

end

variable {P : Type}

/-- Nothing is locked, and what has a name, the root and the working directory are allocated. -/
structure Fs.AtRest (s : Fs P) (p : P) : Prop extends s.Held where
  unlocked : ∀ i, (s.inode i).lock = none
  root : (s.inode ROOTINO).type ≠ .free
  cwd : ∃ i, s.cwd p = some i ∧ (s.inode i).type ≠ .free
  entry : ∀ d, ∀ de ∈ (s.inode d).ents, de.inum ≠ 0 → (s.inode de.inum).type ≠ .free

/-- As `Near`, with the one inode that `p` may have locked -/
structure Aside (s : Fs P) (p : P) (refs : Multiset Nat) (locked : Option Nat) (s' : Fs P) : Prop
    extends Near s refs s' where
  ninodes : s'.ninodes = s.ninodes
  lock : ∀ i, (s'.inode i).lock = if locked = some i then some p else none

/-- There is no entry left in the inode cache for one inode or two. -/
def CacheFull (s : Fs P) (e : FsPanic) : Prop := e = .igetNoInodes ∧ NINODE < s.cached + 2

namespace Aside

variable {s s' s'' : Fs P} {p : P} {refs : Multiset Nat} {locked : Option Nat} {i : Nat}

theorem refl (h : ∀ i, (s.inode i).lock = none) : Aside s p 0 none s where
  toNear := .refl s
  ninodes := rfl
  lock i := by simp [h i]

theorem ref_pos (h : Aside s p refs locked s') (hi : i ∈ refs) : 0 < (s'.inode i).ref := by
  have hcount := Multiset.count_pos.mpr hi
  rw [h.ref]
  omega

theorem cached_le (h : Aside s p refs locked s') : s'.cached ≤ s.cached + refs.card := by
  have hone (a : Nat) (f : Nat → Bool) (l : List Nat) (hl : l.Nodup) :
      l.countP (fun i => f i || i == a) ≤ l.countP f + 1 := by
    have hsplit : l.countP (fun i => f i || i == a) ≤ l.countP f + l.countP (· == a) := by
      clear hl
      induction l with
      | nil => simp
      | cons x l ih =>
        simp only [List.countP_cons]
        cases hf : f x <;> cases ha : x == a <;> simp <;> omega
    have hcount : l.countP (· == a) ≤ 1 := List.nodup_iff_count_le_one.mp hl a
    omega
  have hcached : ∀ t : Multiset Nat,
      (List.range s.ninodes).countP (fun i => 0 < (s.inode i).ref + t.count i) ≤
        s.cached + t.card := by
    intro t
    induction t using Multiset.induction with
    | empty => simp [Fs.cached]
    | cons a t ih =>
      have hpred : (fun i => decide (0 < (s.inode i).ref + (a ::ₘ t).count i)) =
          fun i => decide (0 < (s.inode i).ref + t.count i) || i == a := by
        funext i
        by_cases hi : i = a
        · simp [hi]
        · simp [hi, Multiset.count_cons_of_ne hi]
      rw [hpred, Multiset.card_cons]
      exact (hone a _ _ List.nodup_range).trans (by omega)
  have heq : s'.cached =
      (List.range s.ninodes).countP fun i => 0 < (s.inode i).ref + refs.count i := by
    rw [Fs.cached, h.ninodes]
    simp only [h.ref]
  rw [heq]
  exact hcached refs

theorem setInode_lock (h : Aside s p refs locked s') {n : Inode P} (hn : n.lock = (s'.inode i).lock)
    (j : Nat) : ((s'.setInode i n).inode j).lock = if locked = some j then some p else none := by
  rw [Fs.field_setInode Inode.lock hn, h.lock]

theorem lock_acquire (h : Aside s p refs none s') {n : Inode P} (hn : n.lock = some p) (j : Nat) :
    ((s'.setInode i n).inode j).lock = if some i = some j then some p else none := by
  by_cases hj : j = i
  · rw [hj, Fs.inode_setInode_self, if_pos rfl, hn]
  · rw [Fs.inode_setInode_ne s' n hj, h.lock, if_neg nofun, if_neg (by simpa using Ne.symm hj)]

theorem lock_release (h : Aside s p refs (some i) s') {n : Inode P} (hn : n.lock = none) (j : Nat) :
    ((s'.setInode i n).inode j).lock = if none = some j then some p else none := by
  rw [if_neg nofun]
  by_cases hj : j = i
  · rw [hj, Fs.inode_setInode_self, hn]
  · rw [Fs.inode_setInode_ne s' n hj, h.lock, if_neg (by simpa using Ne.symm hj)]

variable [DecidableEq P]

/-- The programs of `p` alone, which stop only where the cache is full -/
abbrev rules (s : Fs P) (p : P) : Rules FsAct FsAct.Res (Fs P) := Rules.sure (Fs.exec p) (CacheFull s)

variable {Q : Unit → Fs P → Prop}

theorem wp_iget (h : Aside s p refs locked s') (hrefs : refs.card ≤ 1)
    (hQ : ∀ s'', Aside s p (i ::ₘ refs) locked s'' → Q () s'') : (rules s p).wp (iget i) Q s' := by
  refine ⟨?_, ?_⟩
  · show (s'.iget i).within _ _
    unfold Fs.iget
    simp only
    split_ifs with hpos hfull
    · trivial
    · have hle := h.cached_le
      exact ⟨rfl, by omega⟩
    · trivial
  · intro _ s'' he
    cases Fs.exec_step he
    exact hQ _ ⟨h.toNear.addRef rfl rfl rfl rfl rfl rfl, h.ninodes, h.setInode_lock rfl⟩

theorem wp_ilock (h : Aside s p refs none s') (hi : i ∈ refs) (htype : (s.inode i).type ≠ .free)
    (hQ : ∀ s'', Aside s p refs (some i) s'' → Q () s'') :
    (rules s p).wp (ilock i) Q s' := by
  have hlock : (s'.inode i).lock = none := by rw [h.lock, if_neg nofun]
  have hpos := h.ref_pos hi
  refine ⟨?_, ?_⟩
  · show (s'.ilock p i).within _ _
    unfold Fs.ilock
    simp only [hlock, h.type, htype, and_false, if_false, if_neg (Nat.not_lt.mpr hpos)]
    trivial
  · intro _ s'' he
    cases Fs.exec_step he
    exact hQ _ ⟨h.toNear.relock, h.ninodes, h.lock_acquire rfl⟩

theorem wp_iunlock (h : Aside s p refs (some i) s') (hi : i ∈ refs)
    (hQ : ∀ s'', Aside s p refs none s'' → Q () s'') : (rules s p).wp (iunlock i) Q s' := by
  have hlock : (s'.inode i).lock = some p := by rw [h.lock, if_pos rfl]
  have hpos := h.ref_pos hi
  refine ⟨?_, ?_⟩
  · show (s'.iunlock p i).within _ _
    unfold Fs.iunlock
    simp only [hlock, ne_eq, not_true_eq_false, false_or, if_neg (Nat.not_lt.mpr hpos)]
    trivial
  · intro _ s'' he
    cases Fs.exec_step he
    exact hQ _ ⟨h.toNear.relock, h.ninodes, h.lock_release rfl⟩

theorem wp_iput (hs : s.Held) (h : Aside s p refs none s') (hi : i ∈ refs)
    (hQ : ∀ s'', Aside s p (refs.erase i) none s'' → Q () s'') : (rules s p).wp (iput i) Q s' := by
  have hlock : (s'.inode i).lock = none := by rw [h.lock, if_neg nofun]
  have hdrop (t : Fs P) (ht : Aside s p refs none t) :
      (rules s p).wp (Prog.perform (FsAct.iputDrop i)) Q t := by
    refine ⟨trivial, ?_⟩
    intro _ s'' he
    cases he
    exact hQ _ ⟨ht.toNear.of_iputDrop hi, ht.ninodes, ht.setInode_lock rfl⟩
  rw [iput, wp_bind]
  refine ⟨?_, ?_⟩
  · show (s'.iputTest p i).within _ _
    unfold Fs.iputTest
    simp only [hlock]
    trivial
  · intro r s1 he
    cases Fs.exec_step he with
    | iputKeep => exact hdrop _ h
    | iputDoom _ hdying =>
      have h1 : Aside s p refs (some i) (s'.setInode i { s'.inode i with lock := some p }) :=
        ⟨h.toNear.relock, h.ninodes, h.lock_acquire rfl⟩
      refine ⟨trivial, ?_⟩
      intro _ s2 he
      cases he
      exact hdrop _ ⟨Near.of_iputFree hs h1.toNear (Near.free_of_dying hs h.toNear hi hdying),
        h1.ninodes, h1.lock_release rfl⟩

theorem wp_iunlockput (hs : s.Held) (h : Aside s p refs (some i) s') (hi : i ∈ refs)
    (hQ : ∀ s'', Aside s p (refs.erase i) none s'' → Q () s'') :
    (rules s p).wp (iunlockput i) Q s' := by
  rw [iunlockput, wp_bind]
  exact h.wp_iunlock hi fun s1 h1 => wp_iput hs h1 hi hQ

theorem wp_readInode (h : Aside s p refs locked s') {Q : Fields → Fs P → Prop}
    (hQ : Q ⟨(s.inode i).type, (s.inode i).nlink, (s.inode i).ents⟩ s') :
    (rules s p).wp (readInode i) Q s' := by
  refine ⟨trivial, ?_⟩
  intro _ s'' he
  cases he
  rw [h.type, h.nlink, h.ents]
  exact hQ

theorem wp_dirlookup (h : Aside s p refs locked s') (hrefs : refs.card ≤ 1)
    (hdir : (s.inode i).type = .dir) {name : Name} {Q : Option (Nat × Nat) → Fs P → Prop}
    (hnone : dirSearch name (s.inode i).ents 0 = none → Q none s')
    (hsome : ∀ e s'', dirSearch name (s.inode i).ents 0 = some e →
      Aside s p (e.1 ::ₘ refs) locked s'' → Q (some e) s'') :
    (rules s p).wp (dirlookup i name) Q s' := by
  rw [dirlookup, wp_bind]
  apply h.wp_readInode
  simp only [hdir, ne_eq, not_true_eq_false, if_false]
  cases hsearch : dirSearch name (s.inode i).ents 0 with
  | none => exact hnone hsearch
  | some e =>
    rw [wp_bind]
    exact h.wp_iget hrefs fun s'' h'' => hsome e s'' hsearch h''

/-- The reference that a lookup returns with -/
def held (r : Option (Nat × Name)) : Multiset Nat :=
  match r with
  | none => 0
  | some (i, _) => {i}

theorem wp_namexFrom (hs : s.AtRest p) {parent : Bool} {name : Name} (h : Aside s p {i} none s')
    (hi : (s.inode i).type ≠ .free) :
    (rules s p).wp (namexFrom parent names i name)
      (fun r s'' => r = s.resolve parent names i name ∧ Aside s p (held r) none s'') s' := by
  induction names generalizing i name s' with
  | nil =>
    rw [namexFrom, Fs.resolve]
    cases parent with
    | false => exact ⟨rfl, h⟩
    | true =>
      rw [if_pos rfl, wp_bind]
      refine wp_iput hs.toHeld h (Multiset.mem_singleton_self i) fun s1 h1 => ?_
      rw [Multiset.erase_singleton] at h1
      exact ⟨rfl, h1⟩
  | cons e rest ih =>
    have hput (t : Fs P) (ht : Aside s p {i} (some i) t)
        (hnone : s.resolve parent (e :: rest) i name = none) :
        (rules s p).wp (do iunlockput i; pure (none : Option (Nat × Name)))
          (fun r s'' => r = s.resolve parent (e :: rest) i name ∧ Aside s p (held r) none s'') t := by
      rw [wp_bind]
      refine wp_iunlockput hs.toHeld ht (Multiset.mem_singleton_self i) fun s1 h1 => ?_
      rw [Multiset.erase_singleton] at h1
      exact ⟨hnone.symm, h1⟩
    rw [namexFrom, wp_bind]
    refine h.wp_ilock (Multiset.mem_singleton_self i) hi fun s1 h1 => ?_
    rw [wp_bind]
    apply h1.wp_readInode
    by_cases hdir : (s.inode i).type = .dir
    · simp only [hdir, ne_eq, not_true_eq_false, if_false]
      by_cases hlast : (parent && rest.isEmpty) = true
      · have hfound : s.resolve parent (e :: rest) i name = some (i, e) := by
          simp [Fs.resolve, hdir, hlast]
        rw [if_pos hlast, wp_bind]
        exact h1.wp_iunlock (Multiset.mem_singleton_self i) fun s2 h2 => ⟨hfound.symm, h2⟩
      · have hnext : s.resolve parent (e :: rest) i name =
            (dirSearch e (s.inode i).ents 0).bind fun e' => s.resolve parent rest e'.1 e := by
          simp only [Fs.resolve, hdir, hlast, ne_eq, not_true_eq_false, if_false,
            Bool.false_eq_true]
        rw [if_neg hlast, wp_bind]
        refine h1.wp_dirlookup (by simp) hdir ?_ ?_
        · intro hnone
          exact hput s1 h1 (by rw [hnext, hnone]; rfl)
        · intro e' s2 hsearch h2
          rw [wp_bind]
          refine wp_iunlockput hs.toHeld h2 (by simp) fun s3 h3 => ?_
          have hkept : (e'.1 ::ₘ {i} : Multiset Nat).erase i = {e'.1} := by
            rw [← Multiset.cons_zero i, Multiset.cons_swap, Multiset.erase_cons_head]
            rfl
          rw [hkept] at h3
          obtain ⟨hne, hmem⟩ := dirSearch_getElem hsearch
          have halloc := hs.entry i _ (List.mem_of_getElem? hmem) hne
          rw [hnext, hsearch]
          exact ih h3 halloc
    · simp only [ne_eq, hdir, not_false_eq_true, if_true]
      exact hput s1 h1 (by simp [Fs.resolve, hdir])

theorem wp_namex (hs : s.AtRest p) (path : Path) (parent : Bool) :
    (rules s p).wp (namex path parent) (fun r s'' =>
      r = ((s.start p path).bind fun i => s.resolve parent (components path) i []) ∧
        Aside s p (held r) none s'') s := by
  have hrest : Aside s p 0 none s := refl hs.unlocked
  rw [namex, pathElems_components, Fs.start]
  by_cases hroot : path.head? = some slash
  · rw [if_pos hroot, if_pos hroot, wp_bind]
    exact hrest.wp_iget (by simp) fun s1 h1 => wp_namexFrom hs h1 hs.root
  · obtain ⟨i, hcwd, halloc⟩ := hs.cwd
    rw [if_neg hroot, if_neg hroot, wp_bind, hcwd]
    have hexec : s.exec p .idupCwd =
        .next (i, s.setInode i { s.inode i with ref := (s.inode i).ref + 1 }) := by
      simp only [Fs.exec, hcwd]
    refine ⟨?_, ?_⟩
    · show (s.exec p .idupCwd).within _ _
      rw [hexec]
      trivial
    · intro r s1 he
      cases hexec.symm.trans he
      refine wp_namexFrom hs ⟨?_, rfl, hrest.setInode_lock rfl⟩ halloc
      exact hrest.toNear.addRef rfl rfl rfl rfl rfl rfl

end Aside

/-- A lookup in a tree at rest stops only if the inode cache is full.  Otherwise `namei` returns where the
walk along the components of the path ends.  `nameiparent` returns 0 exactly if there is no component, or
the walk along all but the last fails or ends outside the directories; else it returns the end of that walk
with a name under which `dirlookup` finds there what `namei` finds. -/
theorem namei_nameiparent [DecidableEq P] {s : Fs P} {p : P} (hs : s.AtRest p) (path : Path) :
    ∃ start, s.start p path = some start ∧
    ((namei path).run (Fs.exec p) s).within (CacheFull s) (fun (r, s') =>
      s.Same s' ∧ r = s.walk start (components path)) ∧
    ((nameiparent path).run (Fs.exec p) s).within (CacheFull s) fun (r, s') =>
      s.Same s' ∧
      (r = none ↔ components path = [] ∨
        ∀ d, s.walk start (components path).dropLast = some d → (s.inode d).type ≠ .dir) ∧
      ∀ d name, r = some (d, name) →
        s.walk start (components path).dropLast = some d ∧
        ((dirlookup d name).run (Fs.exec p) s').within (CacheFull s) fun (r', s'') =>
          s.Same s'' ∧ r'.map Prod.fst = s.walk start (components path) := by
  obtain ⟨start, hstart⟩ : ∃ start, s.start p path = some start := by
    obtain ⟨i, hcwd, -⟩ := hs.cwd
    unfold Fs.start
    split_ifs
    · exact ⟨_, rfl⟩
    · exact ⟨i, hcwd⟩
  refine ⟨start, hstart, ?_, ?_⟩
  · have hwp := Aside.wp_namex hs path false
    rw [hstart] at hwp
    have hnamei : (Aside.rules s p).wp (namei path)
        (fun r s' => s.Same s' ∧ r = s.walk start (components path)) s := by
      rw [namei, wp_bind]
      refine Rules.wp_mono _ hwp fun r s' hr => ?_
      have hwalk := congrArg (Option.map Prod.fst) hr.1
      rw [Option.bind_some, Fs.resolve_false] at hwalk
      cases r with
      | none | some e => exact ⟨hr.2.toSame, hwalk⟩
    exact Rules.within_of_wp hnamei
  · have hwp := Aside.wp_namex hs path true
    rw [hstart] at hwp
    refine (Rules.within_of_wp hwp).mono ?_
    rintro ⟨r, s'⟩ ⟨hr, haside⟩
    rw [Option.bind_some] at hr
    refine ⟨haside.toSame, ?_, ?_⟩
    · rw [show r = _ from hr]
      exact Fs.resolve_true_eq_none
    · intro d name hfound
      obtain ⟨hwalk, hdir, hlookup⟩ := Fs.resolve_true_eq_some (hr.symm.trans hfound)
      have hparent : Aside s p {d} none s' := by
        rw [show r = _ from hfound] at haside
        exact haside
      have hsearch : (Aside.rules s p).wp (dirlookup d name)
          (fun r' s'' => s.Same s'' ∧ r'.map Prod.fst = s.walk start (components path)) s' := by
        rw [← hlookup, Fs.lookup_of_dir hdir]
        refine hparent.wp_dirlookup (by simp) hdir ?_ ?_
        · intro hnone
          exact ⟨hparent.toSame, by rw [hnone]⟩
        · intro e s'' hsome h''
          exact ⟨h''.toSame, by rw [hsome]⟩
      exact ⟨hwalk, Rules.within_of_wp hsearch⟩

/-- `//f` and `f/`, with a file `f` in the root that is the working directory -/
theorem namei_nameiparent_file : allOpen.walk ROOTINO (components [47, 47, 102]) = some 2 ∧
    ((namei [47, 47, 102]).run (Fs.exec 0) allOpen).within (CacheFull allOpen)
      (fun r => r.1 = some 2) ∧
    ((nameiparent [102, 47]).run (Fs.exec 0) allOpen).within (CacheFull allOpen)
      fun r => r.1 ≠ none := by
  have hrest : allOpen.AtRest 0 := by
    refine ⟨allOpen_consistent.toHeld, ?_, by decide, ⟨ROOTINO, rfl, by decide⟩, ?_⟩
    · intro i
      simp only [allOpen]
      split_ifs <;> rfl
    · intro d de hde hne
      by_cases hroot : d = ROOTINO
      · subst hroot
        revert hne
        revert de
        decide
      · simp only [allOpen, if_neg hroot] at hde
        split_ifs at hde <;> cases hde
  have hwalk : allOpen.walk ROOTINO (components [47, 47, 102]) = some 2 := by decide +kernel
  refine ⟨hwalk, ?_, ?_⟩
  · obtain ⟨start, hstart, hnamei, -⟩ := namei_nameiparent hrest [47, 47, 102]
    obtain rfl : ROOTINO = start := Option.some.inj hstart
    exact hnamei.mono fun r hr => hr.2.trans hwalk
  · obtain ⟨start, hstart, -, hparent⟩ := namei_nameiparent hrest [102, 47]
    obtain rfl : ROOTINO = start := Option.some.inj hstart
    refine hparent.mono fun r hr hnone => ?_
    rcases hr.2.1.mp hnone with hnil | hdir
    · exact absurd hnil (by decide +kernel)
    · exact hdir ROOTINO (by decide +kernel) rfl

end Xv6
