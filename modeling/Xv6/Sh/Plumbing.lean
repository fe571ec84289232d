import Xv6.Sh.Runcmd
import Xv6.Sh.Shell

/-!
# The descriptors of the commands that the shell runs

Each process is verified on its own, against a ledger of its descriptors, of the calls of `runcmd` that
led to it and of the pipes made on the way.  In every run, a command starts with descriptors 0, 1 and 2
only, and a write end of a pipe is held on the left of the pipe alone.
-/

namespace Xv6

open Function (update_of_ne update_self)

namespace Sh

variable {W : Type}

/-- The open descriptors are 0, 1 and 2. -/
def Table.Std (t : Table W) : Prop := ∀ fd : Fd, (t fd).isSome ↔ fd.val < 3

/-- Redirections are of descriptors 0, 1 and 2. -/
def Cmd.Redirects : Cmd W → Prop
  | .exec _ => True
  | .redir c _ _ fd => c.Redirects ∧ fd < 3
  | .pipe l r | .list l r => l.Redirects ∧ r.Redirects
  | .back c => c.Redirects

/-- How the call `a` of `runcmd` leads to the call `b` for a subtree: where it is, and which descriptors
differ. -/
def Call.Passes (pipe : Nat → Path → Prop) (a b : Call W) : Prop :=
  match a.cmd with
  | .exec _ => False
  | .redir c file mode fd => b.node = a.node ++ [.sub] ∧ b.cmd = c ∧
      ∃ h : fd < NOFILE, b.table = Function.update a.table ⟨fd, h⟩ (some (.opened file mode))
  | .list l r => b.table = a.table ∧
      (b.node = a.node ++ [.left] ∧ b.cmd = l ∨ b.node = a.node ++ [.right] ∧ b.cmd = r)
  | .pipe l r => ∃ k, pipe k a.node ∧
      (b.node = a.node ++ [.left] ∧ b.cmd = l ∧
          b.table = Function.update a.table 1 (some (.writeEnd k)) ∨
        b.node = a.node ++ [.right] ∧ b.cmd = r ∧
          b.table = Function.update a.table 0 (some (.readEnd k)))
  | .back c => b.node = a.node ++ [.sub] ∧ b.cmd = c ∧ b.table = a.table

theorem Cmd.at?_append (c : Cmd W) (π ρ : Path) : c.at? (π ++ ρ) = (c.at? π).bind (·.at? ρ) := by
  induction π generalizing c with
  | nil => simp [at?]
  | cons side π ih => cases c <;> cases side <;> simp [at?, ih]

variable {rs : List Redir}

theorem redirects_redirect {c : Cmd Word} (hc : c.Redirects)
    (hrs : ∀ r ∈ rs, r.fd < 3) : (redirect rs c).Redirects := by
  induction rs generalizing c with
  | nil => exact hc
  | cons r rs ih =>
    exact ih ⟨hc, hrs r (by simp)⟩ fun r' hr' => hrs r' (List.mem_cons_of_mem _ hr')

variable {ts : List Tok}

theorem Redirs.fd_lt (h : Redirs ts rs) : ∀ r ∈ rs, r.fd < 3 := by
  induction h with
  | nil => simp
  | @cons op w r ts rs hop _ ih =>
    intro r' hr'
    rcases List.mem_cons.mp hr' with rfl | hr'
    · cases op <;> simp only [Tok.redir, Option.some.injEq, reduceCtorEq] at hop <;> subst hop <;>
        simp
    · exact ih r' hr'

theorem Args.fd_lt {ws : List Word} (h : Args ts ws rs) :
    ∀ r ∈ rs, r.fd < 3 := by
  induction h with
  | nil => simp
  | cons hredirs _ ih =>
    intro r hr
    rcases List.mem_append.mp hr with hr | hr
    · exact hredirs.fd_lt r hr
    · exact ih r hr

theorem redirects_backs {c : Cmd Word} (n : Nat) (hc : c.Redirects) : (backs n c).Redirects := by
  induction n generalizing c with
  | zero => exact hc
  | succ n ih => exact ih hc

theorem Derives.redirects {n : Nonterminal} {c : Cmd Word} (h : Derives n ts c) :
    c.Redirects := by
  induction h with
  | line n _ ih => exact redirects_backs n ih
  | lines n _ _ ih ih' => exact ⟨redirects_backs n ih, ih'⟩
  | single _ ih => exact ih
  | pipe _ _ ih ih' => exact ⟨ih, ih'⟩
  | block _ hredirs ih => exact redirects_redirect ih hredirs.fd_lt
  | simple hredirs hargs _ =>
    refine redirects_redirect trivial fun r hr => ?_
    rcases List.mem_append.mp hr with hr | hr
    · exact hredirs.fd_lt r hr
    · exact hargs.fd_lt r hr

namespace Table

variable {t : Table W} {fd : Fd} {f : OpenFile W} {k : Nat}

theorem fdalloc_eq (fd : Fd) (hfree : t fd = none) (hlow : ∀ fd' < fd, (t fd').isSome) (f : OpenFile W) :
    t.fdalloc f = some (fd, Function.update t fd (some f)) := by
  have hfind : (List.finRange NOFILE).find? (fun fd => (t fd).isNone) = some fd := by
    rw [List.find?_eq_some_iff_getElem]
    refine ⟨by simp [hfree], fd.val, by simp, by simp, ?_⟩
    intro j hj
    have hsome := hlow ⟨j, hj.trans fd.isLt⟩ hj
    rw [List.getElem_finRange]
    simpa [Option.isSome_iff_ne_none] using hsome
  rw [fdalloc, hfind]
  rfl

theorem close_val (t : Table W) (fd : Fd) : t.close fd.val = Function.update t fd none :=
  dif_pos fd.isLt

theorem fdalloc_close (hlow : ∀ fd' < fd, (t fd').isSome) (f : OpenFile W) :
    (t.close fd.val).fdalloc f = some (fd, Function.update t fd (some f)) := by
  rw [close_val, fdalloc_eq fd (update_self ..), Function.update_idem]
  intro fd' hlt
  rw [update_of_ne hlt.ne]
  exact hlow fd' hlt

theorem dup_close {fd' : Fd} (hne : fd' ≠ fd) (hf : t fd' = some f)
    (hlow : ∀ fd' < fd, (t fd').isSome) :
    (t.close fd.val).dup fd' = some (fd, Function.update t fd (some f)) := by
  rw [dup, close_val, update_of_ne hne, hf, Option.bind_some, ← close_val,
    fdalloc_close hlow]

theorem Std.isSome (h : t.Std) (hfd : fd.val < 3) : (t fd).isSome := (h fd).mpr hfd

theorem Std.eq_none (h : t.Std) (hfd : 3 ≤ fd.val) : t fd = none := by
  by_contra hne
  have hlt := (h fd).mp (Option.isSome_iff_ne_none.mpr hne)
  omega

theorem Std.update (h : t.Std) (hfd : fd.val < 3) (f : OpenFile W) :
    Std (Function.update t fd (some f)) := by
  intro fd'
  by_cases heq : fd' = fd
  · simp [heq, hfd]
  · rw [update_of_ne heq]
    exact h fd'

theorem Std.fdalloc_close (h : t.Std) (fd : Fd) (hfd : fd.val < 3) (f : OpenFile W) :
    (t.close fd.val).fdalloc f = some (fd, Function.update t fd (some f)) :=
  Table.fdalloc_close (fun _ hlt => h.isSome (Nat.lt_trans hlt hfd)) f

/-- The table after `pipe` -/
def piped (t : Table W) (k : Nat) : Table W :=
  Function.update (Function.update t 3 (some (.readEnd k))) 4 (some (.writeEnd k))

theorem Std.pipe (h : t.Std) (k : Nat) : t.pipe k = some ((3, 4), t.piped k) := by
  have hlow : ∀ fd' < (3 : Fd), (t fd').isSome := fun _ hlt => h.isSome hlt
  rw [Table.pipe, fdalloc_eq 3 (h.eq_none (by decide)) hlow, Option.bind_some]
  simp only
  rw [fdalloc_eq 4]
  · rfl
  · rw [update_of_ne (by decide)]
    exact h.eq_none (by decide)
  · intro fd' hlt
    by_cases heq : fd' = 3
    · simp [heq]
    · rw [update_of_ne heq]
      have hval : fd'.val ≠ 3 := fun hval => heq (Fin.ext hval)
      have hlt' : fd'.val < 4 := hlt
      exact h.isSome (by omega)

theorem Std.piped_low (h : t.Std) {fd : Fd} (hfd : fd.val < 3) : (t.piped k fd).isSome := by
  rw [piped, update_of_ne, update_of_ne]
  · exact h.isSome hfd
  all_goals
    rintro rfl
    revert hfd
    decide

theorem Std.piped_close (h : t.Std) (fd : Fd) (hfd : fd.val < 3) (x : Option (OpenFile W)) :
    (close (Function.update (t.piped k) fd x) 3).close 4 = Function.update t fd x := by
  rw [show (3 : Nat) = (3 : Fd).val from rfl, show (4 : Nat) = (4 : Fd).val from rfl, close_val,
    close_val]
  have hne3 : (3 : Fd) ≠ fd := by rintro rfl; revert hfd; decide
  have hne4 : (4 : Fd) ≠ fd := by rintro rfl; revert hfd; decide
  funext fd'
  by_cases h4 : fd' = 4
  · subst h4
    rw [update_self, update_of_ne hne4]
    exact (h.eq_none (by decide)).symm
  by_cases h3 : fd' = 3
  · subst h3
    rw [update_of_ne h4, update_self, update_of_ne hne3]
    exact (h.eq_none (by decide)).symm
  rw [update_of_ne h4, update_of_ne h3]
  by_cases heq : fd' = fd
  · rw [heq, update_self, update_self]
  · rw [update_of_ne heq, update_of_ne heq, piped, update_of_ne h4,
      update_of_ne h3]

/-- Every file of `t` is one of `t₀` or an end of the pipe `k`. -/
def From (t t₀ : Table W) (k : Nat) : Prop :=
  ∀ fd f, t fd = some f → (∃ fd', t₀ fd' = some f) ∨ f = .readEnd k ∨ f = .writeEnd k

variable {t₀ : Table W}

theorem From.update_none (h : t.From t₀ k) (fd : Fd) : From (Function.update t fd none) t₀ k := by
  intro fd' f hf
  by_cases heq : fd' = fd
  · simp [heq] at hf
  · rw [update_of_ne heq] at hf
    exact h fd' f hf

theorem From.close (h : t.From t₀ k) (fd : Nat) : From (t.close fd) t₀ k := by
  rw [Table.close]
  split
  · exact h.update_none _
  · exact h

theorem From.update_some (h : t.From t₀ k) (fd : Fd) (hf : f = .readEnd k ∨ f = .writeEnd k) :
    From (Function.update t fd (some f)) t₀ k := by
  intro fd' f' hf'
  by_cases heq : fd' = fd
  · subst heq
    obtain rfl : f = f' := by simpa using hf'
    exact .inr hf
  · rw [update_of_ne heq] at hf'
    exact h fd' f' hf'

theorem From.piped (t : Table W) (k : Nat) : From (t.piped k) t k := by
  have hself : From t t k := fun fd f hf => .inl ⟨fd, hf⟩
  exact (hself.update_some 3 (.inl rfl)).update_some 4 (.inr rfl)

end Table

structure Ledger (W : Type) where
  ofile : Table W
  trail : List (Call W)
  /-- The pipes that this process and its ancestors have made, with their nodes -/
  pipes : List (Nat × Path)

namespace Ledger

def node (l : Ledger W) : Path := (l.trail.head?.map Call.node).getD []

/-- At the node, write ends are held on the left of their pipes only. -/
def Clean (l : Ledger W) (node : Path) : Prop :=
  ∀ fd k, l.ofile fd = some (.writeEnd k) →
    fd = 1 ∧ ∃ π, (k, π) ∈ l.pipes ∧ π ++ [.left] <+: node

/-- While a pipe is set up, its node has the write end too. -/
def Confined (l : Ledger W) : Prop :=
  ∀ fd k, l.ofile fd = some (.writeEnd k) →
    ∃ π, (k, π) ∈ l.pipes ∧ (π ++ [.left] <+: l.node ∨ π = l.node)

/-- The call of `runcmd` for the subtree at the node is the first of all, or follows from one before. -/
def Justified (root : Cmd W) (ofile : Table W) (trail : List (Call W)) (pipes : List (Nat × Path))
    (b : Call W) : Prop :=
  b.table.Std ∧ root.at? b.node = some b.cmd ∧
    (b = ⟨[], root, ofile⟩ ∨ ∃ a ∈ trail, a.Passes (fun k π => (k, π) ∈ pipes) b)

end Ledger

/-- What each call needs, and what it does to the descriptors.  `root` is run with `ofile`. -/
def plumbing (root : Cmd W) (ofile : Table W) : Rules (Act W) Act.Res (Ledger W) where
  pre a l := l.Confined ∧
    match a with
    | .runcmd node cmd =>
      Ledger.Justified root ofile l.trail l.pipes ⟨node, cmd, l.ofile⟩ ∧ l.Clean node
    | .wait | .exec _ => l.ofile.Std ∧ l.Clean l.node
    | _ => True
  post
    | .runcmd node cmd, l, _, l' => l' = { l with trail := ⟨node, cmd, l.ofile⟩ :: l.trail }
    | .close fd, l, _, l' => l' = { l with ofile := l.ofile.close fd }
    | .dup fd, l, _, l' =>
      match l.ofile.dup fd with
      | none => l' = l
      | some (_, t) => l' = { l with ofile := t }
    | .openFile file mode, l, r, l' =>
      r = none ∧ l' = l ∨ ∃ fd t, l.ofile.fdalloc (.opened file mode) = some (fd, t) ∧
        r = some fd ∧ l' = { l with ofile := t }
    | .pipe node, l, r, l' =>
      r = none ∧ l' = l ∨ ∃ k fds t, l.ofile.pipe k = some (fds, t) ∧
        r = some fds ∧ l' = { l with ofile := t, pipes := (k, node) :: l.pipes }
    | .fork, l, _, l' | .wait, l, _, l' | .exec _, l, _, l' => l' = l
    | .exit, _, _, _ => True

section

variable {root : Cmd W} {ofile : Table W} {l l₀ : Ledger W} {Q : Empty → Ledger W → Prop} {k : Nat}
  {node : Path}

theorem Ledger.Clean.confined (h : l.Clean l.node) : l.Confined := by
  intro fd k hk
  obtain ⟨-, π, hπ, hle⟩ := h fd k hk
  exact ⟨π, hπ, .inl hle⟩

theorem wp_exit (h : l.Confined) : (plumbing root ofile).wp exit Q l :=
  ⟨⟨h, trivial⟩, fun r => r.elim⟩

theorem wp_fork1 {f : Bool → ShM W Empty} (h : l.Confined)
    (hf : ∀ b, (plumbing root ofile).wp (f b) Q l) : (plumbing root ofile).wp (fork1 f) Q l := by
  refine ⟨⟨h, trivial⟩, ?_⟩
  rintro r _ rfl
  cases r with
  | failed => exact wp_exit h
  | child => exact hf true
  | parent => exact hf false

variable {f : Unit → ShM W Empty}

theorem wp_close {fd : Nat} (h : l.Confined)
    (hf : (plumbing root ofile).wp (f ()) Q { l with ofile := l.ofile.close fd }) :
    (plumbing root ofile).wp (call (.close fd) >>= f) Q l := by
  refine ⟨⟨h, trivial⟩, ?_⟩
  rintro _ _ rfl
  exact hf

theorem wp_dup {fd fd' : Fd} {t : Table W} {f : Option Fd → ShM W Empty} (h : l.Confined)
    (hdup : l.ofile.dup fd = some (fd', t))
    (hf : ∀ r, (plumbing root ofile).wp (f r) Q { l with ofile := t }) :
    (plumbing root ofile).wp (call (.dup fd) >>= f) Q l := by
  refine ⟨⟨h, trivial⟩, ?_⟩
  intro r l' hpost
  simp only [plumbing, hdup] at hpost
  subst hpost
  exact hf r

theorem wp_wait (h : l.ofile.Std) (hclean : l.Clean l.node)
    (hf : (plumbing root ofile).wp (f ()) Q l) :
    (plumbing root ofile).wp (call .wait >>= f) Q l := by
  refine ⟨⟨hclean.confined, h, hclean⟩, ?_⟩
  rintro _ _ rfl
  exact hf

theorem Confined.of_from (hclean : l₀.Clean l₀.node) (htrail : l.trail = l₀.trail)
    (hpipes : l.pipes = (k, l₀.node) :: l₀.pipes) (hfrom : l.ofile.From l₀.ofile k) :
    l.Confined := by
  have hnode : l.node = l₀.node := by rw [Ledger.node, htrail]; rfl
  intro fd k' hk'
  rw [hnode, hpipes]
  rcases hfrom fd _ hk' with ⟨fd', hfd'⟩ | hread | hwrite
  · obtain ⟨-, π, hπ, hle⟩ := hclean fd' k' hfd'
    exact ⟨π, List.mem_cons_of_mem _ hπ, .inl hle⟩
  · cases hread
  · obtain rfl : k' = k := by injection hwrite
    exact ⟨l₀.node, List.mem_cons_self, .inr rfl⟩

variable {side : Side}

theorem Ledger.Clean.below (hclean : l₀.Clean l₀.node) (hpipes : l.pipes = (k, l₀.node) :: l₀.pipes)
    (hfrom : ∀ fd f, l.ofile fd = some f →
      l₀.ofile fd = some f ∨ f = .readEnd k ∨ fd = 1 ∧ f = .writeEnd k ∧ side = .left) :
    l.Clean (l₀.node ++ [side]) := by
  intro fd k' hk'
  rw [hpipes]
  rcases hfrom fd _ hk' with hold | hread | ⟨hfd, hwrite, hside⟩
  · obtain ⟨hfd, π, hπ, hle⟩ := hclean fd k' hold
    exact ⟨hfd, π, List.mem_cons_of_mem _ hπ, hle.trans (List.prefix_append ..)⟩
  · cases hread
  · obtain rfl : k' = k := by injection hwrite
    exact ⟨hfd, l₀.node, List.mem_cons_self, hside ▸ List.prefix_refl _⟩

theorem Ledger.Clean.redirect {fd : Fd} {f : OpenFile W} (hclean : l.Clean l.node)
    (hf : ∀ k, f ≠ .writeEnd k) :
    ({ l with ofile := Function.update l.ofile fd (some f) } : Ledger W).Clean
      (l.node ++ [side]) := by
  intro fd' k hk
  have hold : l.ofile fd' = some (.writeEnd k) := by
    by_cases heq : fd' = fd
    · subst heq
      simp only [update_self, Option.some.injEq] at hk
      exact absurd hk (hf k)
    · simpa only [update_of_ne heq] using hk
  obtain ⟨hfd, π, hπ, hle⟩ := hclean fd' k hold
  exact ⟨hfd, π, hπ, hle.trans (List.prefix_append ..)⟩

theorem Ledger.Clean.descend (hclean : l.Clean l.node) :
    l.Clean (l.node ++ [side]) := by
  intro fd k hk
  obtain ⟨hfd, π, hπ, hle⟩ := hclean fd k hk
  exact ⟨hfd, π, hπ, hle.trans (List.prefix_append ..)⟩

/-- After the call of `runcmd` for `cmd` -/
structure Ledger.Running (root : Cmd W) (l : Ledger W) (cmd : Cmd W) : Prop where
  std : l.ofile.Std
  clean : l.Clean l.node
  here : root.at? l.node = some cmd
  called : ⟨l.node, cmd, l.ofile⟩ ∈ l.trail

theorem Ledger.Running.child {cmd cmd' : Cmd W} (h : l.Running root cmd)
    (hsub : cmd.at? [side] = some cmd') : root.at? (l.node ++ [side]) = some cmd' := by
  rw [Cmd.at?_append, h.here, Option.bind_some, hsub]

theorem Ledger.Running.justified {cmd cmd' : Cmd W} {l' : Ledger W} (h : l.Running root cmd)
    (htrail : l'.trail = l.trail) (hsub : cmd.at? [side] = some cmd') (hstd : l'.ofile.Std)
    (hpass : Call.Passes (fun k π => (k, π) ∈ l'.pipes) ⟨l.node, cmd, l.ofile⟩
      ⟨l.node ++ [side], cmd', l'.ofile⟩) :
    Ledger.Justified root ofile l'.trail l'.pipes ⟨l.node ++ [side], cmd', l'.ofile⟩ :=
  ⟨hstd, h.child hsub, .inr ⟨_, htrail ▸ h.called, hpass⟩⟩

theorem wp_call_runcmd {cmd : Cmd W} (hconf : l.Confined)
    (hjust : Ledger.Justified root ofile l.trail l.pipes ⟨node, cmd, l.ofile⟩) (hclean : l.Clean node)
    (hf : ∀ l' : Ledger W, l'.node = node → l'.Running root cmd →
      (plumbing root ofile).wp (f ()) Q l') :
    (plumbing root ofile).wp (call (.runcmd node cmd) >>= f) Q l := by
  refine ⟨⟨hconf, hjust, hclean⟩, ?_⟩
  rintro _ _ rfl
  exact hf _ rfl ⟨hjust.1, hclean, hjust.2.1, List.mem_cons_self⟩

section

variable {cmd : Cmd W} {left right : Cmd W} {f : ShM W Empty}

theorem Ledger.Running.confined (h : l.Running root cmd) {t : Table W} (hfrom : t.From l.ofile k) :
    Ledger.Confined ⟨t, l.trail, (k, l.node) :: l.pipes⟩ :=
  Confined.of_from h.clean rfl rfl hfrom

/-- A child has one descriptor bound to its end of the pipe when it calls `runcmd`. -/
theorem wp_pipe_child (side : Side) (fd : Fd) {p : Fd} {e : OpenFile W} {sub : Cmd W}
    (h : l.Running root cmd) (hfd : fd.val < 3) (hp : l.ofile.piped k p = some e) (hne : p ≠ fd)
    (he : e = .readEnd k ∨ fd = 1 ∧ e = .writeEnd k ∧ side = .left) (hsub : cmd.at? [side] = some sub)
    (hpass : Call.Passes (fun k' π => (k', π) ∈ (k, l.node) :: l.pipes) ⟨l.node, cmd, l.ofile⟩
      ⟨l.node ++ [side], sub, Function.update l.ofile fd (some e)⟩)
    (hf : ∀ l' : Ledger W, l'.Confined →
      Ledger.Justified root ofile l'.trail l'.pipes ⟨l.node ++ [side], sub, l'.ofile⟩ →
      l'.Clean (l.node ++ [side]) → (plumbing root ofile).wp f Q l') :
    (plumbing root ofile).wp (do
      call (.close fd)
      let _ ← call (.dup p)
      call (.close (3 : Fd))
      call (.close (4 : Fd))
      f) Q ⟨l.ofile.piped k, l.trail, (k, l.node) :: l.pipes⟩ := by
  have hend : e = .readEnd k ∨ e = .writeEnd k := he.imp id fun hw => hw.2.1
  have hfrom := Table.From.piped l.ofile k
  have hfrom' := hfrom.update_some fd hend
  have hself : l.ofile.From l.ofile k := fun fd f hf => .inl ⟨fd, hf⟩
  have hdup := Table.dup_close hne hp fun fd' hlt => h.std.piped_low (Nat.lt_trans hlt hfd)
  refine wp_close (h.confined hfrom) (wp_dup (h.confined (hfrom.close fd)) hdup fun _ => ?_)
  refine wp_close (h.confined hfrom') (wp_close (h.confined (hfrom'.close _)) ?_)
  have htable := h.std.piped_close (k := k) fd hfd (some e)
  change (plumbing root ofile).wp f Q
    ⟨(Table.close (Function.update (l.ofile.piped k) fd (some e)) 3).close 4, l.trail,
      (k, l.node) :: l.pipes⟩
  rw [htable]
  refine hf _ (h.confined (hself.update_some fd hend))
    (h.justified rfl hsub (h.std.update (by omega) _) hpass) (h.clean.below rfl ?_)
  intro fd' f hf
  by_cases heq : fd' = fd
  · subst heq
    obtain rfl : e = f := by simpa using hf
    exact .inr he
  · simp only [update_of_ne heq] at hf
    exact .inl hf

theorem wp_pipe_parent (h : l.Running root cmd) :
    (plumbing root ofile).wp (do
      call (.close (3 : Fd))
      call (.close (4 : Fd))
      call .wait
      call .wait
      exit) Q ⟨l.ofile.piped k, l.trail, (k, l.node) :: l.pipes⟩ := by
  have hfrom := Table.From.piped l.ofile k
  have htable : ((l.ofile.piped k).close (3 : Fd).val).close (4 : Fd).val = l.ofile := by
    have hclose := h.std.piped_close (k := k) 0 (by decide) (l.ofile.piped k 0)
    rw [Function.update_eq_self] at hclose
    exact hclose.trans (Function.update_eq_self_iff.mpr rfl)
  refine wp_close (h.confined hfrom) (wp_close (h.confined (hfrom.close _)) ?_)
  change (plumbing root ofile).wp _ Q ⟨((l.ofile.piped k).close (3 : Fd).val).close (4 : Fd).val,
    l.trail, (k, l.node) :: l.pipes⟩
  rw [htable]
  have hclean : Ledger.Clean ⟨l.ofile, l.trail, (k, l.node) :: l.pipes⟩ l.node := by
    intro fd k' hk'
    obtain ⟨hfd, π, hπ, hle⟩ := h.clean fd k' hk'
    exact ⟨hfd, π, List.mem_cons_of_mem _ hπ, hle⟩
  exact wp_wait h.std hclean (wp_wait h.std hclean (wp_exit hclean.confined))

theorem wp_pipe {f : Option (Fd × Fd) → ShM W Empty} (h : l.Running root cmd)
    (hnone : (plumbing root ofile).wp (f none) Q l)
    (hsome : ∀ k, (plumbing root ofile).wp (f (some (3, 4))) Q
      ⟨l.ofile.piped k, l.trail, (k, l.node) :: l.pipes⟩) :
    (plumbing root ofile).wp (call (.pipe l.node) >>= f) Q l := by
  refine ⟨⟨h.clean.confined, trivial⟩, ?_⟩
  rintro r l' (⟨rfl, rfl⟩ | ⟨k, fds, t, hpipe, rfl, rfl⟩)
  · exact hnone
  · rw [h.std.pipe k] at hpipe
    cases hpipe
    exact hsome k

end

theorem wp_runcmd (cmd : Cmd W) (hredirects : cmd.Redirects) (hconf : l.Confined)
    (hjust : Ledger.Justified root ofile l.trail l.pipes ⟨node, cmd, l.ofile⟩)
    (hclean : l.Clean node) : (plumbing root ofile).wp (runcmd cmd node) Q l := by
  induction cmd generalizing l node with
  | exec argv =>
    rw [runcmd]
    refine wp_call_runcmd hconf hjust hclean fun l' _ h => ?_
    by_cases hargv : argv.isEmpty
    · rw [if_pos hargv]
      exact wp_exit h.clean.confined
    · rw [if_neg hargv]
      refine ⟨⟨h.clean.confined, h.std, h.clean⟩, ?_⟩
      rintro _ _ rfl
      exact wp_exit h.clean.confined
  | redir cmd file mode fd ih =>
    rw [runcmd]
    refine wp_call_runcmd hconf hjust hclean fun l' hnode h => ?_
    subst hnode
    obtain ⟨hsub, hfd⟩ := hredirects
    have hlt : fd < NOFILE := Nat.lt_trans hfd (by decide)
    have hconf' : Ledger.Confined { l' with ofile := l'.ofile.close fd } := by
      intro fd' k hk
      refine h.clean.confined fd' k ?_
      rw [show fd = (⟨fd, hlt⟩ : Fd).val from rfl, Table.close_val] at hk
      by_cases heq : fd' = ⟨fd, hlt⟩
      · simp [heq] at hk
      · simpa only [update_of_ne heq] using hk
    refine wp_close h.clean.confined ⟨⟨hconf', trivial⟩, ?_⟩
    rintro r _ (⟨rfl, rfl⟩ | ⟨fd', t, hopen, rfl, rfl⟩)
    · exact wp_exit hconf'
    have hopen' := h.std.fdalloc_close ⟨fd, hlt⟩ hfd (.opened file mode)
    cases hopen.symm.trans hopen'
    apply ih hsub
    · intro fd' k hk
      by_cases heq : fd' = ⟨fd, hlt⟩
      · simp [heq] at hk
      · exact h.clean.confined fd' k (by simpa only [update_of_ne heq] using hk)
    · exact h.justified rfl (by simp [Cmd.at?]) (h.std.update hfd _) ⟨rfl, rfl, hlt, rfl⟩
    · exact h.clean.redirect nofun
  | list left right ihl ihr =>
    rw [runcmd]
    refine wp_call_runcmd hconf hjust hclean fun l' hnode h => ?_
    subst hnode
    apply wp_fork1 h.clean.confined
    rintro (_ | _)
    · refine wp_wait h.std h.clean ?_
      exact ihr hredirects.2 h.clean.confined
        (h.justified rfl (by simp [Cmd.at?]) h.std ⟨rfl, .inr ⟨rfl, rfl⟩⟩) h.clean.descend
    · exact ihl hredirects.1 h.clean.confined
        (h.justified rfl (by simp [Cmd.at?]) h.std ⟨rfl, .inl ⟨rfl, rfl⟩⟩) h.clean.descend
  | pipe left right ihl ihr =>
    rw [runcmd]
    refine wp_call_runcmd hconf hjust hclean fun l' hnode h => ?_
    subst hnode
    refine wp_pipe h (wp_exit h.clean.confined) fun k => ?_
    have hconf' := h.confined (Table.From.piped l'.ofile k)
    apply wp_fork1 hconf'
    rintro (_ | _)
    · rw [if_neg Bool.false_ne_true]
      apply wp_fork1 hconf'
      rintro (_ | _)
      · exact wp_pipe_parent h
      · exact wp_pipe_child .right 0 h (by decide) rfl (by decide) (.inl rfl) (by simp [Cmd.at?])
          ⟨k, List.mem_cons_self, .inr ⟨rfl, rfl, rfl⟩⟩ fun _ => ihr hredirects.2
    · exact wp_pipe_child .left 1 h (by decide) rfl (by decide) (.inr ⟨rfl, rfl, rfl⟩)
        (by simp [Cmd.at?]) ⟨k, List.mem_cons_self, .inl ⟨rfl, rfl, rfl⟩⟩ fun _ => ihl hredirects.1
  | back cmd ih =>
    rw [runcmd]
    refine wp_call_runcmd hconf hjust hclean fun l' hnode h => ?_
    subst hnode
    apply wp_fork1 h.clean.confined
    rintro (_ | _)
    · exact wp_exit h.clean.confined
    · exact ih hredirects h.clean.confined (h.justified rfl (by simp [Cmd.at?]) h.std ⟨rfl, rfl, rfl⟩)
        h.clean.descend

end

section

variable {P : Type} {root : Cmd W} {ofile : Table W} {made : List Path} {x : Process P W}

/-- The process fits a ledger with its descriptors and its history, whose pipes have been made. -/
structure Process.Fits (root : Cmd W) (ofile : Table W) (made : List Path) (x : Process P W)
    (pipes : List (Nat × Path)) : Prop where
  made : ∀ k π, (k, π) ∈ pipes → made[k]? = some π
  trail : ∀ b ∈ x.trail, Ledger.Justified root ofile x.trail pipes b
  code : match x.code with
    | .shell prog => (plumbing root ofile).wp prog (fun _ _ => True) ⟨x.ofile, x.trail, pipes⟩
    | .program _ => x.ofile.Std ∧ Ledger.Clean ⟨x.ofile, x.trail, pipes⟩ x.node
    | .zombie => ∀ fd, x.ofile fd = none

def Process.Plumbed (root : Cmd W) (ofile : Table W) (made : List Path) (x : Process P W) : Prop :=
  ∃ pipes, x.Fits root ofile made pipes

theorem Call.Passes.mono {pipe pipe' : Nat → Path → Prop} {a b : Call W} (h : a.Passes pipe b)
    (hpipe : ∀ k π, pipe k π → pipe' k π) : a.Passes pipe' b := by
  unfold Call.Passes at h ⊢
  cases hcmd : a.cmd with
  | exec argv | redir c file mode fd | list l r | back c => rw [hcmd] at h; exact h
  | pipe l r =>
    rw [hcmd] at h
    obtain ⟨k, hk, hrest⟩ := h
    exact ⟨k, hpipe k _ hk, hrest⟩

theorem Ledger.Justified.mono {trail trail' : List (Call W)} {pipes pipes' : List (Nat × Path)}
    {b : Call W} (h : Ledger.Justified root ofile trail pipes b) (htrail : ∀ a ∈ trail, a ∈ trail')
    (hpipes : ∀ e ∈ pipes, e ∈ pipes') :
    Ledger.Justified root ofile trail' pipes' b := by
  obtain ⟨hstd, hhere, hfrom⟩ := h
  refine ⟨hstd, hhere, hfrom.imp_right ?_⟩
  rintro ⟨a, ha, hpass⟩
  exact ⟨a, htrail a ha, hpass.mono fun k π hk => hpipes _ hk⟩

theorem Process.Plumbed.append (h : x.Plumbed root ofile made) (node : Path) :
    x.Plumbed root ofile (made ++ [node]) := by
  obtain ⟨pipes, hfits⟩ := h
  refine ⟨pipes, { hfits with made := ?_ }⟩
  intro k π hk
  have hmade := hfits.made k π hk
  have hlt : k < made.length := by
    by_contra hge
    rw [List.getElem?_eq_none (Nat.not_lt.mp hge)] at hmade
    cases hmade
  rw [List.getElem?_append_left hlt]
  exact hmade

end

end Sh

namespace Shell

open Sh

variable {P W : Type} {s s' : Shell P W} {p q : P} {x y : Process P W} {root : Cmd W}
  {ofile : Table W}

/-- Every process keeps to the rules. -/
def Plumbed (root : Cmd W) (ofile : Table W) (s : Shell P W) : Prop :=
  ∀ p x, s.proc p = some x → x.Plumbed root ofile s.made

variable [DecidableEq P]

theorem Plumbed.set (h : s.Plumbed root ofile) (hx : x.Plumbed root ofile s.made) :
    (s.set p x).Plumbed root ofile := by
  intro q y hy
  by_cases heq : q = p
  · subst heq
    obtain rfl : x = y := by simpa [Shell.set] using hy
    exact hx
  · exact h q y (by simpa [Shell.set, heq] using hy)

theorem Plumbed.exit (h : s.Plumbed root ofile) (hx : s.proc p = some x) :
    (s.exit p x).Plumbed root ofile := by
  intro q y hy
  by_cases heq : q = p
  · subst heq
    obtain rfl : ({ x with code := .zombie, ofile := fun _ => none } : Process P W) = y := by
      simpa [Shell.exit] using hy
    obtain ⟨pipes, hfits⟩ := h q x hx
    exact ⟨pipes, { hfits with code := fun _ => rfl }⟩
  · simp only [Shell.exit, update_of_ne heq, Option.map_eq_some_iff] at hy
    obtain ⟨y₀, hy₀, rfl⟩ := hy
    obtain ⟨pipes, hfits⟩ := h q y₀ hy₀
    split
    · exact ⟨pipes, ⟨hfits.made, hfits.trail, hfits.code⟩⟩
    · exact ⟨pipes, hfits⟩

variable [Fintype P]

theorem made_wait (hs : s.wait p q = some s') : s'.made = s.made := by
  unfold Shell.wait at hs
  split_ifs at hs <;> cases hs <;> rfl

theorem proc_wait (hs : s.wait p q = some s') {r : P} (hy : s'.proc r = some y) :
    s.proc r = some y := by
  unfold Shell.wait at hs
  split_ifs at hs <;> cases hs
  · by_cases heq : r = q
    · simp [heq] at hy
    · simpa [heq] using hy
  · exact hy

/-- The step lemma: each action keeps every process to the rules. -/
theorem Plumbed.perform {ok : Bool} {a : Act W} {k : a.Res → ShM W Empty} (h : s.Plumbed root ofile)
    (hx : s.proc p = some x) (hcode : x.code = .shell (.act a k))
    (hs : s.perform p x ok q a k = .next s') : s'.Plumbed root ofile := by
  obtain ⟨pipes, hmade, htrail, hwp⟩ := h p x hx
  rw [hcode] at hwp
  obtain ⟨⟨hconf, hpre⟩, hpost⟩ := hwp
  cases a with
  | runcmd node cmd =>
    cases hs
    refine h.set ⟨pipes, hmade, ?_, hpost () _ rfl⟩
    intro b hb
    rcases List.mem_cons.mp hb with rfl | hb
    · exact hpre.1.mono (fun _ => List.mem_cons_of_mem _) fun _ he => he
    · exact (htrail b hb).mono (fun _ => List.mem_cons_of_mem _) fun _ he => he
  | close fd =>
    cases hs
    exact h.set ⟨pipes, hmade, htrail, hpost () _ rfl⟩
  | dup fd =>
    rw [Shell.perform] at hs
    cases hdup : x.ofile.dup fd with
    | none =>
      rw [hdup] at hs
      cases hs
      exact h.set ⟨pipes, hmade, htrail, hpost none _ (by simp only [plumbing, hdup])⟩
    | some r =>
      rw [hdup] at hs
      cases hs
      exact h.set ⟨pipes, hmade, htrail,
        hpost (some r.1) ⟨r.2, x.trail, pipes⟩ (by simp only [plumbing, hdup])⟩
  | openFile file mode =>
    rw [Shell.perform] at hs
    split at hs
    · cases hs
      exact h.set ⟨pipes, hmade, htrail, hpost none _ (.inl ⟨rfl, rfl⟩)⟩
    · rename_i fd t hopen
      cases hs
      have hopen' : x.ofile.fdalloc (.opened file mode) = some (fd, t) := by
        cases ok <;> simp_all
      exact h.set ⟨pipes, hmade, htrail,
        hpost (some fd) _ (.inr ⟨fd, t, hopen', rfl, rfl⟩)⟩
  | pipe node =>
    rw [Shell.perform] at hs
    split at hs
    · cases hs
      exact h.set ⟨pipes, hmade, htrail, hpost none _ (.inl ⟨rfl, rfl⟩)⟩
    · rename_i fds t hpipe
      cases hs
      have hpipe' : x.ofile.pipe s.made.length = some (fds, t) := by
        cases ok <;> simp_all
      have happend : Plumbed root ofile { s with made := s.made ++ [node] } :=
        fun r y hy => (h r y hy).append node
      refine happend.set ⟨(s.made.length, node) :: pipes, ?_, ?_,
        hpost (some fds) _ (.inr ⟨_, fds, t, hpipe', rfl, rfl⟩)⟩
      · intro k π hk
        rcases List.mem_cons.mp hk with heq | hk
        · cases heq
          simp
        · have hold := hmade k π hk
          have hlt : k < s.made.length := by
            by_contra hge
            rw [List.getElem?_eq_none (Nat.not_lt.mp hge)] at hold
            cases hold
          exact (List.getElem?_append_left hlt).trans hold
      · intro b hb
        exact (htrail b hb).mono (fun _ ha => ha) fun _ => List.mem_cons_of_mem _
  | fork =>
    rw [Shell.perform] at hs
    split_ifs at hs
    · cases hs
      refine Plumbed.set (Plumbed.set h ?_) ?_
      · exact ⟨pipes, hmade, htrail, hpost .parent _ rfl⟩
      · exact ⟨pipes, hmade, htrail, hpost .child _ rfl⟩
    · cases hs
      exact h.set ⟨pipes, hmade, htrail, hpost .failed _ rfl⟩
  | wait =>
    rw [Shell.perform] at hs
    cases hwait : s.wait p q with
    | none => rw [hwait] at hs; cases hs
    | some s₁ =>
      rw [hwait] at hs
      cases hs
      have hm := made_wait hwait
      have h₁ : s₁.Plumbed root ofile := by
        intro r y hy
        rw [hm]
        exact h r y (proc_wait hwait hy)
      exact h₁.set ⟨pipes, by rw [hm]; exact hmade, htrail, hpost () _ rfl⟩
  | exec argv =>
    cases hs
    refine h.set ⟨pipes, hmade, htrail, ?_⟩
    cases ok with
    | true => exact hpre
    | false => exact hpost () _ rfl
  | exit =>
    cases hs
    exact h.exit hx

theorem step_cases {e : Event P} (hs : s.step e = .next s') :
    (∃ p x ok q a k, s.proc p = some x ∧ x.code = .shell (.act a k) ∧
      s.perform p x ok q a k = .next s') ∨ ∃ p x, s.proc p = some x ∧ s.exit p x = s' := by
  cases e with
  | act p ok q =>
    rw [Shell.step] at hs
    split at hs <;> [cases hs; split at hs] <;> [skip; cases hs]
    exact .inl ⟨p, _, ok, q, _, _, ‹_›, ‹_›, hs⟩
  | exit p =>
    rw [Shell.step] at hs
    split at hs <;> [cases hs; split at hs] <;> cases hs
    exact .inr ⟨p, _, ‹_›, rfl⟩

theorem Plumbed.step {e : Event P} (h : s.Plumbed root ofile) (hs : s.step e = .next s') :
    s'.Plumbed root ofile := by
  obtain ⟨p, x, ok, q, a, k, hx, hcode, hp⟩ | ⟨p, x, hx, rfl⟩ := step_cases hs
  · exact h.perform hx hcode hp
  · exact h.exit hx

end Shell

end Xv6
