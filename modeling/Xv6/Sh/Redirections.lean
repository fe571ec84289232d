import Xv6.Sh.Pipeline

/-!
# Which redirection a command gets

`parseredirs` wraps the tree once more for each redirection that it reads, and `runcmd` opens the files
from the outside in: of the redirections of one descriptor, the first one written is opened last.
-/

namespace Xv6

namespace Sh

/-- The tokens of one command, its redirections in the order written, and what they are wrapped around -/
inductive Wraps : List Tok → List Redir → Cmd Word → Prop where
  | simple {ts ts' : List Tok} {rs rs' : List Redir} {ws : List Word} :
      Redirs ts rs → Args ts' ws rs' → ws.length < MAXARGS →
      Wraps (ts ++ ts') (rs ++ rs') (.exec ws)
  | block {ts ts' : List Tok} {c : Cmd Word} {rs : List Redir} :
      Derives .line ts c → Redirs ts' rs → Wraps (.lpar :: (ts ++ .rpar :: ts')) rs c

theorem Wraps.derives {ts : List Tok} {rs : List Redir} {c : Cmd Word} (h : Wraps ts rs c) :
    Derives .exec ts (redirect rs c) := by
  cases h with
  | simple hrs hargs hmax => exact .simple hrs hargs hmax
  | block hline hrs => exact .block hline hrs

theorem Wraps.parsecmd {text : List UInt8} {rs : List Redir} {c : Cmd Word} {fuel : Nat}
    (h : Wraps (tokens text) rs c) (htext : (0 : UInt8) ∉ text)
    (hfuel : 4 * text.length + 4 ≤ fuel) : parsecmd fuel text = .ok (redirect rs c) := by
  have hline : Derives .line (tokens text ++ List.replicate 0 .amp) (backs 0 (redirect rs c)) :=
    .line 0 (.single h.derives)
  rw [List.replicate_zero, List.append_nil] at hline
  exact parsecmd_of_derives htext hfuel hline

theorem at?_redirect (rs : List Redir) (c : Cmd Word) :
    (redirect rs c).at? (List.replicate rs.length .sub) = some c := by
  induction rs generalizing c with
  | nil => simp [redirect, Cmd.at?]
  | cons r rs ih =>
    have hat : (redirect rs (.redir c r.file r.mode r.fd)).at?
        (List.replicate rs.length .sub ++ [.sub]) = some c := by
      rw [Cmd.at?_append, ih]
      simp [Cmd.at?]
    rw [List.length_cons, List.replicate_succ']
    exact hat

theorem Call.Passes.of_redir {pipe : Nat → Path → Prop} {a b : Call Word} {π : Path} {c : Cmd Word}
    {file : Word} {mode fd : Nat} (h : a.Passes pipe b) (hnode : b.node = π ++ [.sub])
    (hcmd : a.node = π → a.cmd = .redir c file mode fd) :
    a.node = π ∧
      ∃ hfd : fd < NOFILE, b.table = Function.update a.table ⟨fd, hfd⟩ (some (.opened file mode)) := by
  have hparent : a.node = π := by
    unfold Call.Passes at h
    split at h
    case h_1 => exact h.elim
    case h_2 => exact (List.append_inj' (h.1.symm.trans hnode) rfl).1
    case h_3 =>
      rcases h.2 with ⟨hb, -⟩ | ⟨hb, -⟩
      · exact (List.append_inj' (hb.symm.trans hnode) rfl).1
      · exact (List.append_inj' (hb.symm.trans hnode) rfl).1
    case h_4 =>
      obtain ⟨k, -, ⟨hb, -⟩ | ⟨hb, -⟩⟩ := h
      · exact (List.append_inj' (hb.symm.trans hnode) rfl).1
      · exact (List.append_inj' (hb.symm.trans hnode) rfl).1
    case h_5 => exact (List.append_inj' (h.1.symm.trans hnode) rfl).1
  rw [Call.Passes, hcmd hparent] at h
  exact ⟨hparent, h.2.2⟩

/-- Where the redirections end, each descriptor is bound to the file of its first redirection. -/
theorem Process.Plumbed.first_redir {P : Type} {root : Cmd Word} {ofile : Table Word}
    {made : List Path} {x : Process P Word} (h : x.Plumbed root ofile made) {rs : List Redir}
    {c : Cmd Word} {π : Path} (hat : root.at? π = some (redirect rs c)) {b : Call Word}
    (hb : b ∈ x.trail) (hnode : b.node = π ++ List.replicate rs.length .sub) {fd : Fd} {r : Redir}
    (hr : rs.find? (fun r => r.fd = fd.val) = some r) :
    b.table fd = some (.opened r.file r.mode) := by
  induction rs generalizing b c with
  | nil => cases hr
  | cons r₁ rs ih =>
    rw [List.length_cons, List.replicate_succ', ← List.append_assoc] at hnode
    obtain ⟨-, -, hfirst | ⟨a, ha, hpass⟩⟩ := h.justified hb
    · rw [hfirst] at hnode
      exact absurd hnode (by simp)
    · -- The call before is that for the innermost redirection, the first of the list.
      have hwrapped : root.at? (π ++ List.replicate rs.length .sub) =
          some (.redir c r₁.file r₁.mode r₁.fd) := by
        rw [Cmd.at?_append, hat]
        exact at?_redirect rs _
      have hcmd (hparent : a.node = π ++ List.replicate rs.length .sub) :
          a.cmd = .redir c r₁.file r₁.mode r₁.fd := by
        have hhere := (h.justified ha).2.1
        rw [hparent, hwrapped] at hhere
        exact (Option.some.inj hhere).symm
      obtain ⟨hparent, hfd, htable⟩ := hpass.of_redir hnode hcmd
      rw [htable]
      by_cases heq : r₁.fd = fd.val
      · rw [List.find?_cons_of_pos (by simpa using heq)] at hr
        obtain rfl : r₁ = r := Option.some.inj hr
        obtain rfl : fd = ⟨r₁.fd, hfd⟩ := Fin.ext heq.symm
        exact Function.update_self ..
      · rw [List.find?_cons_of_neg (by simpa using heq)] at hr
        rw [Function.update_of_ne fun hsame => heq (congrArg Fin.val hsame).symm]
        exact ih hat ha hparent hr

theorem find?_reverse {rs : List Redir} (hrs : (rs.map Redir.fd).Nodup) (fd : Nat) :
    rs.reverse.find? (fun r => r.fd = fd) = rs.find? (fun r => r.fd = fd) := by
  induction rs with
  | nil => rfl
  | cons r rs ih =>
    obtain ⟨hr, hrs⟩ := List.nodup_cons.mp hrs
    rw [List.reverse_cons, List.find?_append, ih hrs]
    by_cases heq : r.fd = fd
    · have hnone : rs.find? (fun r => r.fd = fd) = none := by
        rw [List.find?_eq_none]
        intro r' hr' hsame
        have hfd : r'.fd = r.fd := (of_decide_eq_true hsame).trans heq.symm
        exact hr (hfd ▸ List.mem_map_of_mem hr')
      simp [hnone, heq]
    · simp [heq]

end Sh

namespace Shell

open Sh

/-- A command is parsed to its redirections, wrapped around it in the order written.  In every state of
every run of a tree with such a command, if no descriptor is redirected twice, `runcmd` reaches the
command with each descriptor bound to the file of its last redirection. -/
theorem redirections_apply {rs : List Redir} {c : Cmd Word} (hrs : (rs.map Redir.fd).Nodup) :
    (∀ fuel text, (0 : UInt8) ∉ text → 4 * text.length + 4 ≤ fuel → Wraps (tokens text) rs c →
      parsecmd fuel text = .ok (redirect rs c)) ∧
    ∀ {P : Type} [DecidableEq P] [Fintype P] (root : Cmd Word) (ofile : Table Word) (p₀ : P)
      (s : Shell P Word), root.Redirects → ofile.Std →
      (∀ fd f, ofile fd = some f → ∃ n, f = .given n) →
      Reach step (fun _ _ => True) (init root ofile p₀) s →
      ∀ π, root.at? π = some (redirect rs c) →
      ∀ p x, s.proc p = some x →
      ∀ b ∈ x.trail, b.node = π ++ List.replicate rs.length .sub →
        b.cmd = c ∧
        ∀ fd r, rs.reverse.find? (fun r => r.fd = fd.val) = some r →
          b.table fd = some (.opened r.file r.mode) := by
  refine ⟨fun _ _ htext hfuel h => h.parsecmd htext hfuel, ?_⟩
  intro P _ _ root ofile p₀ s hredirects hstd hgiven h π hat p x hx b hb hnode
  have hplumbed : s.Plumbed root ofile :=
    h.invariant (I := Plumbed root ofile) (.init hredirects hstd hgiven)
      fun _ _ _ hs _ hstep => hs.step hstep
  refine ⟨?_, ?_⟩
  · have hhere := ((hplumbed p x hx).justified hb).2.1
    rw [hnode, Cmd.at?_append, hat] at hhere
    exact Option.some.inj (hhere.symm.trans (at?_redirect rs c))
  · intro fd r hr
    rw [find?_reverse hrs] at hr
    exact (hplumbed p x hx).first_redir hat hb hnode hr

/-- Descriptors 0, 1 and 2 as they were given -/
def given : Table Word := fun fd => if fd.val < 3 then some (.given fd.val) else none

theorem given_std : given.Std := by
  intro fd
  by_cases h : fd.val < 3 <;> simp [given, h]

theorem given_given (fd : Fd) (f : OpenFile Word) (hf : given fd = some f) : ∃ n, f = .given n := by
  unfold given at hf
  split at hf
  · exact ⟨fd.val, (Option.some.inj hf).symm⟩
  · cases hf

/-- `a<f>g` -/
theorem redirections_apply_both :
    ∃ (root : Cmd Word) (s : Shell (Fin 1) Word) (x : Process (Fin 1) Word) (b : Call Word),
      parsecmd 24 [ch 'a', ch '<', ch 'f', ch '>', ch 'g'] = .ok root ∧
      Reach step (fun _ _ => True) (init root given 0) s ∧ s.proc 0 = some x ∧ b ∈ x.trail ∧
      b.cmd = .exec [[ch 'a']] ∧ b.table 0 = some (.opened [ch 'f'] Sh.O_RDONLY) ∧
      b.table 1 = some (.opened [ch 'g'] (Sh.O_WRONLY ||| Sh.O_CREATE)) := by
  have hwraps : Wraps (tokens [ch 'a', ch '<', ch 'f', ch '>', ch 'g'])
      [⟨[ch 'f'], Sh.O_RDONLY, 0⟩, ⟨[ch 'g'], Sh.O_WRONLY ||| Sh.O_CREATE, 1⟩] (.exec [[ch 'a']]) :=
    .simple .nil (.cons (.cons (show Tok.redir [ch 'f'] .lt = some _ from rfl)
      (.cons (show Tok.redir [ch 'g'] .gt = some _ from rfl) .nil)) .nil) (by decide)
  obtain ⟨hparse, hrun⟩ := redirections_apply (c := .exec [[ch 'a']])
    (show (List.map Redir.fd [⟨[ch 'f'], Sh.O_RDONLY, 0⟩,
      ⟨[ch 'g'], Sh.O_WRONLY ||| Sh.O_CREATE, 1⟩]).Nodup by decide)
  have hroot := hparse 24 _ (by decide +kernel) (by decide) hwraps
  obtain ⟨s, hs, htest⟩ := Outcome.exists_of_holds
    (r := runEvents (step (P := Fin 1) (W := Word))
      (init (redirect [⟨[ch 'f'], Sh.O_RDONLY, 0⟩, ⟨[ch 'g'], Sh.O_WRONLY ||| Sh.O_CREATE, 1⟩]
        (.exec [[ch 'a']])) given 0) (List.replicate 7 (.act 0 true 0)))
    (Q := fun s => (s.proc 0).any fun x => x.trail.any fun b => b.node = [.sub, .sub])
    (by decide +kernel)
  have hreach := Reach.of_runEvents .init _ (Along.of_forall (fun _ _ => trivial) _ _) hs
  obtain ⟨x, hx, htrail⟩ := (Option.any_eq_true ..).mp htest
  obtain ⟨b, hb, hnode⟩ := List.any_eq_true.mp htrail
  have hredirects := redirects_of_parsecmd (by decide +kernel) (by decide) hroot
  obtain ⟨hcmd, htable⟩ := hrun _ given 0 s hredirects given_std given_given hreach []
    (by simp [Cmd.at?]) 0 x hx b hb (of_decide_eq_true hnode)
  exact ⟨_, s, x, b, hroot, hreach, hx, hb, hcmd, htable 0 ⟨[ch 'f'], Sh.O_RDONLY, 0⟩ rfl,
    htable 1 ⟨[ch 'g'], Sh.O_WRONLY ||| Sh.O_CREATE, 1⟩ rfl⟩

/-- `a<f<g`: the command reads from `f`. -/
theorem redirections_apply_first : Wraps (tokens [ch 'a', ch '<', ch 'f', ch '<', ch 'g'])
      [⟨[ch 'f'], Sh.O_RDONLY, 0⟩, ⟨[ch 'g'], Sh.O_RDONLY, 0⟩] (.exec [[ch 'a']]) ∧
    ∃ (root : Cmd Word) (s : Shell (Fin 1) Word) (x : Process (Fin 1) Word) (b : Call Word),
      parsecmd 24 [ch 'a', ch '<', ch 'f', ch '<', ch 'g'] = .ok root ∧
      Reach step (fun _ _ => True) (init root given 0) s ∧ s.proc 0 = some x ∧ b ∈ x.trail ∧
      b.cmd = .exec [[ch 'a']] ∧ b.table 0 = some (.opened [ch 'f'] Sh.O_RDONLY) := by
  refine ⟨.simple .nil (.cons (.cons (show Tok.redir [ch 'f'] .lt = some _ from rfl)
    (.cons (show Tok.redir [ch 'g'] .lt = some _ from rfl) .nil)) .nil) (by decide), ?_⟩
  obtain ⟨s, hs, htest⟩ := Outcome.exists_of_holds
    (r := runEvents (step (P := Fin 1) (W := Word))
      (init (.redir (.redir (.exec [[ch 'a']]) [ch 'f'] Sh.O_RDONLY 0) [ch 'g'] Sh.O_RDONLY 0) given 0)
      (List.replicate 7 (.act 0 true 0)))
    (Q := fun s => (s.proc 0).any fun x => x.trail.any fun b =>
      b.cmd = .exec [[ch 'a']] && b.table 0 = some (.opened [ch 'f'] Sh.O_RDONLY))
    (by decide +kernel)
  have hreach := Reach.of_runEvents .init _ (Along.of_forall (fun _ _ => trivial) _ _) hs
  obtain ⟨x, hx, htrail⟩ := (Option.any_eq_true ..).mp htest
  obtain ⟨b, hb, hcall⟩ := List.any_eq_true.mp htrail
  simp only [Bool.and_eq_true, decide_eq_true_eq] at hcall
  exact ⟨_, s, x, b, by decide +kernel, hreach, hx, hb, hcall⟩

end Shell

end Xv6
