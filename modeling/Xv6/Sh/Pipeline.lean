import Xv6.Sh.Plumbing

/-!
# One pipe for each node

A node of the tree is run once, by one process.  So each `PIPE` node has one pipe, and what each process
holds of it says which ends are left open in a run.
-/

namespace Xv6

namespace Sh

variable {W : Type}

/-- The program may come to make the pipe of the node. -/
def May (node : Path) : ShM W Empty → Prop
  | .ret _ => False
  | .act a k => a = .pipe node ∨ ∃ r, May node (k r)

/-- The program makes the pipe of a node once at most, in the copies that it forks taken together. -/
def Once : ShM W Empty → Prop
  | .ret _ => True
  | .act .fork k => (∀ r, Once (k r)) ∧ ∀ node, May node (k .child) → ¬May node (k .parent)
  | .act (.pipe node) k => (∀ r, Once (k r)) ∧ ∀ r, ¬May node (k r)
  | .act (.runcmd _ _) k | .act (.close _) k | .act (.dup _) k | .act (.openFile _ _) k | .act .wait k
  | .act (.exec _) k | .act .exit k => ∀ r, Once (k r)

section

variable {node ρ : Path} {f : Bool → ShM W Empty}

theorem not_may_exit : ¬May (W := W) node exit := by
  rintro (h | ⟨r, -⟩)
  · cases h
  · exact r.elim

theorem once_exit : Once (W := W) exit := fun r => r.elim

theorem may_fork1 (h : May node (fork1 f)) : May node (f true) ∨ May node (f false) := by
  rcases h with h | ⟨r, h⟩
  · cases h
  · cases r with
    | failed => exact absurd h not_may_exit
    | child => exact .inl h
    | parent => exact .inr h

theorem once_fork1 (hchild : Once (f true)) (hparent : Once (f false))
    (hapart : ∀ node, May node (f true) → ¬May node (f false)) : Once (fork1 f) := by
  refine ⟨?_, hapart⟩
  intro r
  cases r with
  | failed => exact once_exit
  | child => exact hchild
  | parent => exact hparent

theorem apart_sides {side side' : Side} (hne : side ≠ side') (h : node ++ [side] <+: ρ) :
    ¬node ++ [side'] <+: ρ := by
  intro h'
  obtain ⟨t, rfl⟩ := h
  obtain ⟨t', ht'⟩ := h'
  rw [List.append_assoc, List.append_assoc, List.append_cancel_left_eq] at ht'
  injection ht' with hside
  exact hne hside.symm

theorem may_call {a : Act W} {f : a.Res → ShM W Empty} (h : May node (call a >>= f))
    (ha : ∀ π, a ≠ .pipe π) : ∃ r, May node (f r) :=
  h.resolve_left (ha node)

theorem may_pipe {f : Option (Fd × Fd) → ShM W Empty} (h : May ρ (call (.pipe node) >>= f)) :
    node = ρ ∨ ∃ r, May ρ (f r) :=
  h.imp_left fun heq => by injection heq

theorem once_call {a : Act W} {f : a.Res → ShM W Empty} (hfork : a ≠ .fork) (hpipe : ∀ π, a ≠ .pipe π)
    (h : ∀ r, Once (f r)) : Once (call a >>= f) := by
  cases a with
  | fork => exact absurd rfl hfork
  | pipe π => exact absurd rfl (hpipe π)
  | _ => exact h

theorem once_pipe {f : Option (Fd × Fd) → ShM W Empty} (h : ∀ r, Once (f r))
    (hmay : ∀ r, ¬May node (f r)) : Once (call (.pipe node) >>= f) := ⟨h, hmay⟩

theorem may_child {fd : Nat} {p p0 p1 : Fd} {f : ShM W Empty} (h : May node (do
    call (.close fd)
    let _ ← call (.dup p)
    call (.close p0)
    call (.close p1)
    f)) : May node f := by
  obtain ⟨-, h⟩ := may_call h nofun
  obtain ⟨-, h⟩ := may_call h nofun
  obtain ⟨-, h⟩ := may_call h nofun
  obtain ⟨-, h⟩ := may_call h nofun
  exact h

theorem not_may_parent {p0 p1 : Fd} : ¬May (W := W) node (do
    call (.close p0)
    call (.close p1)
    call .wait
    call .wait
    exit) := by
  intro h
  obtain ⟨-, h⟩ := may_call h nofun
  obtain ⟨-, h⟩ := may_call h nofun
  obtain ⟨-, h⟩ := may_call h nofun
  obtain ⟨-, h⟩ := may_call h nofun
  exact not_may_exit h

theorem once_child {fd : Nat} {p p0 p1 : Fd} {f : ShM W Empty} (h : Once f) : Once (do
    call (.close fd)
    let _ ← call (.dup p)
    call (.close p0)
    call (.close p1)
    f) := by
  refine once_call nofun nofun fun _ => once_call nofun nofun fun _ => ?_
  exact once_call nofun nofun fun _ => once_call nofun nofun fun _ => h

theorem once_parent {p0 p1 : Fd} : Once (W := W) (do
    call (.close p0)
    call (.close p1)
    call .wait
    call .wait
    exit) := by
  refine once_call nofun nofun fun _ => once_call nofun nofun fun _ => ?_
  exact once_call nofun nofun fun _ => once_call nofun nofun fun _ => once_exit

theorem prefix_of_side {side : Side} (h : node ++ [side] <+: ρ) : node <+: ρ :=
  (List.prefix_append ..).trans h

theorem prefix_of_may (cmd : Cmd W) (h : May ρ (runcmd cmd node)) : node <+: ρ := by
  induction cmd generalizing node with
  | exec argv =>
    rw [runcmd] at h
    obtain ⟨-, h⟩ := may_call h (by simp)
    split at h
    · exact absurd h not_may_exit
    · obtain ⟨-, h⟩ := may_call h (by simp)
      exact absurd h not_may_exit
  | redir cmd file mode fd ih =>
    rw [runcmd] at h
    obtain ⟨-, h⟩ := may_call h (by simp)
    obtain ⟨-, h⟩ := may_call h (by simp)
    obtain ⟨r, h⟩ := may_call h (by simp)
    cases r with
    | none => exact absurd h not_may_exit
    | some _ => exact prefix_of_side (ih h)
  | list left right ihl ihr =>
    rw [runcmd] at h
    obtain ⟨-, h⟩ := may_call h (by simp)
    rcases may_fork1 h with h | h
    · exact prefix_of_side (ihl h)
    · obtain ⟨-, h⟩ := may_call h (by simp)
      exact prefix_of_side (ihr h)
  | pipe left right ihl ihr =>
    rw [runcmd] at h
    obtain ⟨-, h⟩ := may_call h (by simp)
    rcases may_pipe h with rfl | ⟨r, h⟩
    · exact List.prefix_refl _
    cases r with
    | none => exact absurd h not_may_exit
    | some fds =>
      rcases may_fork1 h with h | h
      · exact prefix_of_side (ihl (may_child h))
      · rw [if_neg Bool.false_ne_true] at h
        rcases may_fork1 h with h | h
        · exact prefix_of_side (ihr (may_child h))
        · exact absurd h not_may_parent
  | back cmd ih =>
    rw [runcmd] at h
    obtain ⟨-, h⟩ := may_call h (by simp)
    rcases may_fork1 h with h | h
    · exact prefix_of_side (ih h)
    · exact absurd h not_may_exit

theorem not_prefix_self {side : Side} : ¬node ++ [side] <+: node := by
  intro h
  have hlen := h.length_le
  rw [List.length_append, List.length_singleton] at hlen
  omega

theorem once_runcmd (cmd : Cmd W) (node : Path) : Once (runcmd cmd node) := by
  induction cmd generalizing node with
  | exec argv =>
    rw [runcmd]
    refine once_call (by simp) (by simp) fun _ => ?_
    split
    · exact once_exit
    · exact once_call (by simp) (by simp) fun _ => once_exit
  | redir cmd file mode fd ih =>
    rw [runcmd]
    refine once_call (by simp) (by simp) fun _ => ?_
    refine once_call (by simp) (by simp) fun _ => ?_
    refine once_call (by simp) (by simp) fun r => ?_
    cases r with
    | none => exact once_exit
    | some _ => exact ih _
  | list left right ihl ihr =>
    rw [runcmd]
    refine once_call (by simp) (by simp) fun _ => ?_
    apply once_fork1
    · exact ihl _
    · exact once_call (by simp) (by simp) fun _ => ihr _
    · intro ρ hl hr
      obtain ⟨-, hr⟩ := may_call hr (by simp)
      exact apart_sides (by decide) (prefix_of_may left hl) (prefix_of_may right hr)
  | pipe left right ihl ihr =>
    rw [runcmd]
    refine once_call (by simp) (by simp) fun _ => ?_
    apply once_pipe
    · intro r
      cases r with
      | none => exact once_exit
      | some fds =>
        apply once_fork1
        · exact once_child (ihl _)
        · rw [if_neg Bool.false_ne_true]
          apply once_fork1
          · exact once_child (ihr _)
          · exact once_parent
          · exact fun ρ _ hr => not_may_parent hr
        · intro ρ hl hr
          rw [if_neg Bool.false_ne_true] at hr
          rcases may_fork1 hr with hr | hr
          · exact apart_sides (by decide) (prefix_of_may left (may_child hl))
              (prefix_of_may right (may_child hr))
          · exact not_may_parent hr
    · intro r h
      cases r with
      | none => exact not_may_exit h
      | some fds =>
        rcases may_fork1 h with h | h
        · exact not_prefix_self (prefix_of_may left (may_child h))
        · rw [if_neg Bool.false_ne_true] at h
          rcases may_fork1 h with h | h
          · exact not_prefix_self (prefix_of_may right (may_child h))
          · exact not_may_parent h
  | back cmd ih =>
    rw [runcmd]
    refine once_call (by simp) (by simp) fun _ => ?_
    apply once_fork1
    · exact ih _
    · exact once_exit
    · exact fun ρ _ hr => not_may_exit hr

end

def Process.May {P : Type} (x : Process P W) (node : Path) : Prop :=
  match x.code with
  | .shell prog => Sh.May node prog
  | .program _ | .zombie => False

def Process.Once {P : Type} (x : Process P W) : Prop :=
  match x.code with
  | .shell prog => Sh.Once prog
  | .program _ | .zombie => True

/-- The process waits, is about to run a program or runs one, or has exited. -/
def Process.Settled {P : Type} (x : Process P W) : Prop :=
  match x.code with
  | .shell (.act .wait _) | .shell (.act (.exec _) _) => True
  | .shell _ => False
  | .program _ | .zombie => True

end Sh

namespace Shell

open Sh

variable {P W : Type} {s s' : Shell P W} {p q : P} {x y : Process P W}

/-- No two processes may make the pipe of the same node, and none that of a node that has one. -/
structure Apart (s : Shell P W) : Prop where
  nodup : s.made.Nodup
  once : ∀ {p x}, s.proc p = some x → x.Once
  fresh : ∀ {p x node}, s.proc p = some x → x.May node → node ∉ s.made
  apart : ∀ {p q x y node}, p ≠ q → s.proc p = some x → s.proc q = some y → x.May node → ¬y.May node

theorem Apart.of_origin (h : s.Apart) (hmade : s'.made = s.made) (o : P → P)
    (horigin : ∀ r y, s'.proc r = some y →
      y.Once ∧ ∃ y₀, s.proc (o r) = some y₀ ∧ ∀ node, y.May node → y₀.May node)
    (hsame : ∀ r r' y y' node, r ≠ r' → o r = o r' → s'.proc r = some y → s'.proc r' = some y' →
      y.May node → ¬y'.May node) : s'.Apart := by
  refine ⟨hmade ▸ h.nodup, fun hy => (horigin _ _ hy).1, ?_, ?_⟩
  · intro r y node hy hmay
    obtain ⟨-, y₀, hy₀, hsub⟩ := horigin r y hy
    rw [hmade]
    exact h.fresh hy₀ (hsub node hmay)
  · intro r r' y y' node hne hy hy' hmay hmay'
    obtain ⟨-, y₀, hy₀, hsub⟩ := horigin r y hy
    obtain ⟨-, y₀', hy₀', hsub'⟩ := horigin r' y' hy'
    by_cases heq : o r = o r'
    · exact hsame r r' y y' node hne heq hy hy' hmay hmay'
    · exact h.apart heq hy₀ hy₀' (hsub node hmay) (hsub' node hmay')

theorem Apart.of_le (h : s.Apart) (hmade : s'.made = s.made)
    (hle : ∀ r y, s'.proc r = some y →
      y.Once ∧ ∃ y₀, s.proc r = some y₀ ∧ ∀ node, y.May node → y₀.May node) : s'.Apart :=
  h.of_origin hmade id hle fun _ _ _ _ _ hne heq => absurd heq hne

theorem Apart.make {node : Sh.Path} (h : s.Apart) (hnew : node ∉ s.made)
    (hmay : ∀ {p x}, s.proc p = some x → ¬x.May node) :
    Apart { s with made := s.made ++ [node] } := by
  refine ⟨?_, h.once, ?_, h.apart⟩
  · rw [List.nodup_append]
    refine ⟨h.nodup, by simp, ?_⟩
    rintro a ha b hb rfl
    obtain rfl : a = node := by simpa using hb
    exact hnew ha
  · intro p x ρ hx hρ hmem
    rcases List.mem_append.mp hmem with hmem | hmem
    · exact h.fresh hx hρ hmem
    · obtain rfl : ρ = node := by simpa using hmem
      exact hmay hx hρ

variable [DecidableEq P]

theorem Apart.set {x' : Process P W} (h : s.Apart) (hx : s.proc p = some x) (honce : x'.Once)
    (hsub : ∀ node, x'.May node → x.May node) : (s.set p x').Apart := by
  refine h.of_le rfl ?_
  intro r y hy
  by_cases heq : r = p
  · subst heq
    obtain rfl : x' = y := by simpa [Shell.set] using hy
    exact ⟨honce, x, hx, hsub⟩
  · have hy' : s.proc r = some y := by simpa [Shell.set, heq] using hy
    exact ⟨h.once hy', y, hy', fun _ hmay => hmay⟩

theorem Apart.exit (h : s.Apart) (hx : s.proc p = some x) : (s.exit p x).Apart := by
  refine h.of_le rfl ?_
  intro r y hy
  by_cases heq : r = p
  · subst heq
    obtain rfl : ({ x with code := .zombie, ofile := fun _ => none } : Process P W) = y := by
      simpa [Shell.exit] using hy
    exact ⟨trivial, x, hx, fun _ hmay => hmay.elim⟩
  · simp only [Shell.exit, Function.update_of_ne heq, Option.map_eq_some_iff] at hy
    obtain ⟨y₀, hy₀, rfl⟩ := hy
    have honce := h.once hy₀
    split
    · exact ⟨honce, y₀, hy₀, fun _ hmay => hmay⟩
    · exact ⟨honce, y₀, hy₀, fun _ hmay => hmay⟩

variable [Fintype P]

theorem Apart.perform {ok : Bool} {a : Act W} {k : a.Res → ShM W Empty} (h : s.Apart)
    (hx : s.proc p = some x) (hcode : x.code = .shell (.act a k))
    (hs : s.perform p x ok q a k = .next s') : s'.Apart := by
  have honce : Sh.Once (.act a k) := by
    have := h.once hx
    rwa [Process.Once, hcode] at this
  have hmay : ∀ {node r}, Sh.May node (k r) → x.May node := by
    intro node r hr
    rw [Process.May, hcode]
    exact .inr ⟨r, hr⟩
  cases a with
  | runcmd node cmd | close fd =>
    cases hs
    exact h.set hx (honce ()) fun _ hr => hmay hr
  | dup fd | openFile file mode =>
    rw [Shell.perform] at hs
    split at hs <;> cases hs
    · exact h.set hx (honce none) fun _ hr => hmay hr
    · exact h.set hx (honce (some _)) fun _ hr => hmay hr
  | pipe node =>
    rw [Shell.perform] at hs
    split at hs <;> cases hs
    · exact h.set hx (honce.1 none) fun _ hr => hmay hr
    · -- nobody else may make this pipe, and this process makes it now
      rename_i fds t _
      have hnode : x.May node := by
        rw [Process.May, hcode]
        exact .inl rfl
      have hset : (s.set p { x with code := .shell (k (some fds)), ofile := t }).Apart :=
        h.set hx (honce.1 (some fds)) fun _ hr => hmay hr
      refine hset.make (h.fresh hx hnode) ?_
      intro r y hy
      by_cases heq : r = p
      · subst heq
        obtain rfl : _ = y := by simpa [Shell.set] using hy
        exact honce.2 (some fds)
      · exact h.apart (Ne.symm heq) hx (by simpa [Shell.set, heq] using hy) hnode
  | fork =>
    rw [Shell.perform] at hs
    split_ifs at hs with hok hslot
    · cases hs
      have hfree : s.proc q = none := by simpa using hslot
      have hne : q ≠ p := by
        rintro rfl
        cases hfree.symm.trans hx
      refine h.of_origin rfl (fun r => if r = q then p else r) ?_ ?_
      · intro r y hy
        by_cases hrq : r = q
        · subst hrq
          obtain rfl : _ = y := by simpa [Shell.set] using hy
          exact ⟨honce.1 .child, x, by simpa using hx, fun _ hr => hmay hr⟩
        · by_cases hrp : r = p
          · subst hrp
            obtain rfl : _ = y := by simpa [Shell.set, hrq] using hy
            exact ⟨honce.1 .parent, x, by simpa [hrq] using hx, fun _ hr => hmay hr⟩
          · have hy' : s.proc r = some y := by simpa [Shell.set, hrq, hrp] using hy
            exact ⟨h.once hy', y, by simpa [hrq] using hy', fun _ hr => hr⟩
      · -- the two copies, of which either may be the first
        intro r r' y y' node hrr' horigin hy hy' hr hr'
        by_cases hrq : r = q
        · subst hrq
          have hr'q : r' ≠ r := Ne.symm hrr'
          obtain rfl : p = r' := by simpa [hr'q] using horigin
          obtain rfl : _ = y := by simpa [Shell.set] using hy
          obtain rfl : _ = y' := by simpa [Shell.set, hr'q] using hy'
          exact honce.2 node hr hr'
        · by_cases hr'q : r' = q
          · subst hr'q
            obtain rfl : r = p := by simpa [hrq] using horigin
            obtain rfl : _ = y := by simpa [Shell.set, hrq] using hy
            obtain rfl : _ = y' := by simpa [Shell.set] using hy'
            exact honce.2 node hr' hr
          · exact hrr' (by simpa [hrq, hr'q] using horigin)
    · cases hs
      exact h.set hx (honce.1 .failed) fun _ hr => hmay hr
  | wait =>
    rw [Shell.perform] at hs
    cases hwait : s.wait p q with
    | none => rw [hwait] at hs; cases hs
    | some s₁ =>
      rw [hwait] at hs
      cases hs
      have hm := made_wait hwait
      refine h.of_le hm ?_
      intro r y hy
      by_cases heq : r = p
      · subst heq
        obtain rfl : _ = y := by simpa [Shell.set] using hy
        exact ⟨honce (), x, hx, fun _ hr => hmay hr⟩
      · have hy' := proc_wait hwait (show s₁.proc r = some y by simpa [Shell.set, heq] using hy)
        exact ⟨h.once hy', y, hy', fun _ hr => hr⟩
  | exec argv =>
    cases hs
    cases ok with
    | true => exact h.set hx trivial fun _ hr => hr.elim
    | false => exact h.set hx (honce ()) fun _ hr => hmay hr
  | exit =>
    cases hs
    exact h.exit hx

theorem Apart.step {e : Event P} (h : s.Apart) (hs : s.step e = .next s') : s'.Apart := by
  obtain ⟨p, x, ok, q, a, k, hx, hcode, hp⟩ | ⟨p, x, hx, rfl⟩ := step_cases hs
  · exact h.perform hx hcode hp
  · exact h.exit hx

section

variable {root : Cmd W} {ofile : Table W} {p₀ : P}

omit [Fintype P] in
theorem proc_init (h : (init root ofile p₀).proc p = some x) :
    p = p₀ ∧ x = ⟨.shell (runcmd root []), ofile, none, []⟩ := by
  by_cases heq : p = p₀
  · subst heq
    exact ⟨rfl, by simpa [init] using h.symm⟩
  · simp [init, heq] at h

omit [Fintype P] in
theorem Apart.init : (init root ofile p₀).Apart where
  nodup := .nil
  once h := by
    obtain ⟨-, rfl⟩ := proc_init h
    exact once_runcmd root []
  fresh _ _ := by simp [Shell.init]
  apart hne hx hy := by
    obtain ⟨rfl, -⟩ := proc_init hx
    obtain ⟨rfl, -⟩ := proc_init hy
    exact absurd rfl hne

omit [Fintype P] in
theorem Plumbed.init (hredirects : root.Redirects) (hstd : ofile.Std)
    (hgiven : ∀ fd f, ofile fd = some f → ∃ n, f = .given n) :
    (init root ofile p₀).Plumbed root ofile := by
  intro p x hx
  obtain ⟨-, rfl⟩ := proc_init hx
  have hnone : ∀ fd k, ofile fd ≠ some (.writeEnd k) := by
    intro fd k hk
    obtain ⟨n, hn⟩ := hgiven fd _ hk
    cases hn
  refine ⟨[], nofun, nofun, ?_⟩
  apply wp_runcmd root hredirects
  · exact fun fd k hk => absurd hk (hnone fd k)
  · exact ⟨hstd, by simp [Cmd.at?], .inl rfl⟩
  · exact fun fd k hk => absurd hk (hnone fd k)

end

end Shell

namespace Sh

variable {P W : Type} {x : Process P W} {root : Cmd W} {ofile : Table W} {made : List Path}

theorem Process.Plumbed.std_of_exec (h : x.Plumbed root ofile made) {argv : List W}
    {k : Unit → ShM W Empty} (hcode : x.code = .shell (.act (.exec argv) k)) : x.ofile.Std := by
  obtain ⟨pipes, -, -, hwp⟩ := h
  rw [hcode] at hwp
  exact hwp.1.2.1

theorem Process.Plumbed.justified (h : x.Plumbed root ofile made) {b : Call W} (hb : b ∈ x.trail) :
    b.table.Std ∧ root.at? b.node = some b.cmd ∧
      (b = ⟨[], root, ofile⟩ ∨ ∃ a ∈ x.trail, a.Passes (fun k π => made[k]? = some π) b) := by
  obtain ⟨pipes, hmade, htrail, -⟩ := h
  obtain ⟨hstd, hhere, hfrom⟩ := htrail b hb
  refine ⟨hstd, hhere, hfrom.imp_right ?_⟩
  rintro ⟨a, ha, hpass⟩
  exact ⟨a, ha, hpass.mono hmade⟩

/-- Who holds the write end of a pipe is on the left of it, or still busy with setting it up. -/
theorem Process.Plumbed.writeEnd (h : x.Plumbed root ofile made) {fd : Fd} {k : Nat} {π : Path}
    (hfd : x.ofile fd = some (.writeEnd k)) (hπ : made[k]? = some π) :
    π ++ [.left] <+: x.node ∨ π = x.node ∧ ¬x.Settled := by
  obtain ⟨pipes, hmade, -, hcode⟩ := h
  have hknown : ∀ {π'}, (k, π') ∈ pipes → π' = π :=
    fun hmem => Option.some.inj ((hmade k _ hmem).symm.trans hπ)
  have hclean (hclean : Ledger.Clean ⟨x.ofile, x.trail, pipes⟩ x.node) : π ++ [.left] <+: x.node := by
    obtain ⟨-, π', hmem, hle⟩ := hclean fd k hfd
    rwa [hknown hmem] at hle
  unfold Process.Settled
  cases hx : x.code with
  | zombie =>
    rw [hx] at hcode
    exact nomatch (hcode fd).symm.trans hfd
  | program argv =>
    rw [hx] at hcode
    exact .inl (hclean hcode.2)
  | shell prog =>
    rw [hx] at hcode
    cases prog with
    | ret r => exact r.elim
    | act a k' =>
      obtain ⟨⟨hconf, hpre⟩, -⟩ := hcode
      obtain ⟨π', hmem, hle⟩ := hconf fd k hfd
      rw [hknown hmem] at hle
      cases a with
      | wait | exec argv => exact .inl (hclean hpre.2)
      | _ => exact hle.imp_right fun heq => ⟨heq, id⟩

theorem redirects_of_parsecmd {fuel : Nat} {text : List UInt8} {cmd : Cmd Word}
    (htext : (0 : UInt8) ∉ text) (hfuel : 4 * text.length + 4 ≤ fuel)
    (h : parsecmd fuel text = .ok cmd) : cmd.Redirects :=
  (derives_of_parsecmd htext hfuel h).redirects

end Sh

namespace Shell

open Sh

/-- The trees that the shell reads redirect standard descriptors only.  For every such tree, run by a
process with descriptors 0, 1 and 2 open, in every state of every run: each node has one pipe at most;
a process about to run a command has descriptors 0, 1 and 2 open and no others; a subtree was entered
with the descriptors of its parent, but for the one that a redirection has opened, or that stands for an
end of the node's pipe; the write end of a pipe is held in the left subtree of its node, or at the node
before the process there waits.  So, with the left side gone, no write end is open. -/
theorem runcmd_plumbing : (∀ fuel text cmd, (0 : UInt8) ∉ text → 4 * text.length + 4 ≤ fuel →
      parsecmd fuel text = .ok cmd → cmd.Redirects) ∧
    ∀ {P W : Type} [DecidableEq P] [Fintype P] (root : Cmd W) (ofile : Table W) (p₀ : P)
      (s : Shell P W), root.Redirects → ofile.Std → (∀ fd f, ofile fd = some f → ∃ n, f = .given n) →
      Reach step (fun _ _ => True) (init root ofile p₀) s →
      s.made.Nodup ∧
      (∀ p x, s.proc p = some x →
        (∀ argv k, x.code = .shell (.act (.exec argv) k) → x.ofile.Std) ∧
        (∀ b ∈ x.trail, b.table.Std ∧ root.at? b.node = some b.cmd ∧
          (b = ⟨[], root, ofile⟩ ∨ ∃ a ∈ x.trail, a.Passes (fun k π => s.made[k]? = some π) b)) ∧
        ∀ fd k π, x.ofile fd = some (.writeEnd k) → s.made[k]? = some π →
          π ++ [.left] <+: x.node ∨ π = x.node ∧ ¬x.Settled) ∧
      ∀ (k : Nat) π, s.made[k]? = some π →
        (∀ p x, s.proc p = some x → ¬π ++ [.left] <+: x.node ∧ (π = x.node → x.Settled)) →
        ∀ p x fd, s.proc p = some x → x.ofile fd ≠ some (.writeEnd k) := by
  refine ⟨fun _ _ _ htext hfuel h => redirects_of_parsecmd htext hfuel h, ?_⟩
  intro P W _ _ root ofile p₀ s hredirects hstd hgiven h
  have hplumbed : s.Plumbed root ofile :=
    h.invariant (I := Plumbed root ofile) (.init hredirects hstd hgiven)
      fun _ _ _ hs _ hstep => hs.step hstep
  have hapart : s.Apart := h.invariant .init fun _ _ _ hs _ hstep => hs.step hstep
  refine ⟨hapart.nodup, ?_, ?_⟩
  · intro p x hx
    have hpx := hplumbed p x hx
    exact ⟨fun _ _ hcode => hpx.std_of_exec hcode, fun _ hb => hpx.justified hb,
      fun _ _ _ hfd hπ => hpx.writeEnd hfd hπ⟩
  · intro k π hπ hgone p x fd hx hfd
    obtain ⟨hleft, hnode⟩ := hgone p x hx
    rcases (hplumbed p x hx).writeEnd hfd hπ with hle | ⟨heq, hbusy⟩
    · exact hleft hle
    · exact hbusy (hnode heq)

/-- The process calls `exec` next. -/
def execs {P W : Type} (x : Process P W) : Bool :=
  match x.code with
  | .shell (.act (.exec _) _) => true
  | _ => false

/-- The left side of a pipeline, about to run its command -/
theorem runcmd_plumbing_left :
    ∃ (s : Shell (Fin 3) Nat) (x : Process (Fin 3) Nat), s.proc 1 = some x ∧ x.node = [.left] ∧
      x.ofile 1 = some (.writeEnd 0) ∧ x.ofile.Std ∧ s.made.Nodup := by
  have hgiven : ∀ (fd : Fd) (f : OpenFile Nat),
      (if fd.val < 3 then some (OpenFile.given fd.val) else none) = some f → ∃ n, f = .given n := by
    intro fd f hf
    split at hf
    · exact ⟨fd.val, (Option.some.inj hf).symm⟩
    · cases hf
  have hstd : Table.Std (W := Nat) fun fd => if fd.val < 3 then some (.given fd.val) else none := by
    intro fd
    by_cases h : fd.val < 3 <;> simp [h]
  obtain ⟨s, hrun, hs⟩ := Outcome.exists_of_holds
    (r := runEvents (step (P := Fin 3) (W := Nat))
      (init (.pipe (.exec [0]) (.exec [1]))
        (fun fd => if fd.val < 3 then some (.given fd.val) else none) 0)
      [.act 0 true 0, .act 0 true 0, .act 0 true 1, .act 1 true 0, .act 1 true 0, .act 1 true 0,
        .act 1 true 0, .act 1 true 0])
    (Q := fun s => (s.proc 1).any fun x =>
      x.node = [.left] && x.ofile 1 = some (.writeEnd 0) && execs x) (by decide +kernel)
  have hreach := Reach.of_runEvents .init _ (Along.of_forall (fun _ _ => trivial) _ _) hrun
  have hredirects : Cmd.Redirects (W := Nat) (.pipe (.exec [0]) (.exec [1])) := ⟨trivial, trivial⟩
  obtain ⟨hnodup, hproc, -⟩ := runcmd_plumbing.2 _ _ _ s hredirects hstd hgiven hreach
  obtain ⟨x, hx, htest⟩ := (Option.any_eq_true ..).mp hs
  simp only [Bool.and_eq_true, decide_eq_true_eq] at htest
  obtain ⟨⟨hnode, hfd⟩, hcode⟩ := htest
  refine ⟨s, x, hx, hnode, hfd, ?_, hnodup⟩
  unfold execs at hcode
  split at hcode
  · rename_i argv k heq
    exact (hproc 1 x hx).1 argv k heq
  · cases hcode

end Shell

end Xv6
