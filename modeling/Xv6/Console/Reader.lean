import Xv6.Console.Editor

/-!
# The line discipline over whole runs

A reader takes the committed bytes in order, up to a newline or to its count.  A `^D` that it meets
after some bytes is left in the buffer; one that it meets first is taken, and the call returns 0.
-/

namespace Xv6.Console

variable {s : Input} {ed : Editor}

namespace Input.Shows

theorem init : Input.Shows ⟨fun _ => 0, 0, 0, 0⟩ ⟨[], [], 0⟩ where
  ring := ⟨Nat.le_refl _, Nat.zero_le _, fun _ _ hk => absurd hk (Nat.not_lt_zero _)⟩
  taken := Nat.le_refl _
  r := rfl
  w := rfl
  e := rfl
  plain := List.not_mem_nil

/-- `input.r == input.w` -/
theorem read_iff (h : s.Shows ed) : s.r = s.w ↔ ed.committed.drop ed.taken = [] := by
  rw [h.r, h.w, h.committed.empty_iff (by decide), List.drop_eq_nil_iff]
  have htaken := h.taken
  omega

/-- `c = input.buf[input.r % INPUT_BUF]` -/
theorem next (h : s.Shows ed) {c : UInt8} {rest : List UInt8}
    (hc : ed.committed.drop ed.taken = c :: rest) : s.buf (s.r % INPUT_BUF) = c := by
  have hlt : ed.taken < ed.committed.length := by
    by_contra hge
    rw [List.drop_eq_nil_of_le (by omega)] at hc
    cases hc
  rw [List.drop_eq_getElem_cons hlt] at hc
  rw [h.r, Ring.cell_mod (by decide), h.committed.cell _ le_rfl hlt, (List.cons.inj hc).1]

/-- `input.r++` -/
theorem advance (h : s.Shows ed) {c : UInt8} {rest : List UInt8}
    (hc : ed.committed.drop ed.taken = c :: rest) :
    ({ s with r := inc s.r } : Input).Shows { ed with taken := ed.taken + 1 } := by
  have hlt : ed.taken + 1 ≤ ed.committed.length := by
    by_contra hge
    rw [List.drop_eq_nil_of_le (by omega)] at hc
    cases hc
  refine ⟨h.ring.later (Nat.le_succ _) ?_, hlt, ?_, h.w, h.e, h.plain⟩
  · rw [List.length_append]
    exact Nat.le_add_right_of_le hlt
  · exact (congrArg inc h.r).trans (inc_mod _)

/-- `input.r++` and `input.r--` -/
theorem dec_inc (h : s.Shows ed) : dec (inc s.r) = s.r := by
  rw [h.r, inc_mod, dec_mod]

end Input.Shows

/-- What a section did: it took the next committed bytes and copied them out, or it took the `^D`
that it met first. -/
structure Section.Reads (q : Section) (target : Nat) (dst took : List UInt8) (ed : Editor)
    (more : List UInt8) : Prop where
  took : q.took = took ++ more
  input : q.input.Shows { ed with taken := ed.taken + more.length }
  next : more <+: ed.committed.drop ed.taken
  dst : q.dst = dst ++ more ∨ dst = [] ∧ q.dst = [] ∧ more = [ctrl 'D']
  count : q.dst.length + q.n = target

theorem readLoop_reads (target n : Nat) (dst took : List UInt8) (h : s.Shows ed)
    (hcount : dst.length + n = target) :
    ∃ more, (readLoop target n dst took s).Reads target dst took ed more := by
  induction n generalizing dst took s ed with
  | zero => exact ⟨[], by simp [readLoop], h, List.nil_prefix, by simp [readLoop], hcount⟩
  | succ n ih =>
    rw [readLoop]
    cases hunread : ed.committed.drop ed.taken with
    | nil =>
      rw [if_pos (h.read_iff.mpr hunread)]
      exact ⟨[], by simp, h, List.nil_prefix, by simp, hcount⟩
    | cons c rest =>
      rw [if_neg (by rw [h.read_iff, hunread]; simp), h.next hunread]
      have hnext : [c] <+: ed.committed.drop ed.taken := by
        rw [hunread]
        exact ⟨rest, rfl⟩
      dsimp only
      split
      · split
        · -- The `^D` is put back.
          refine ⟨[], by simp, ?_, List.nil_prefix, by simp, hcount⟩
          rw [h.dec_inc]
          exact h
        · rename_i hc hfirst
          have hdst : dst = [] := List.length_eq_zero_iff.mp (by omega)
          subst dst
          exact ⟨[c], rfl, h.advance hunread, hnext, .inr ⟨rfl, rfl, by rw [hc]⟩, hcount⟩
      · split
        · refine ⟨[c], rfl, h.advance hunread, hnext, .inl rfl, ?_⟩
          simp only [List.length_append, List.length_singleton]
          omega
        · obtain ⟨more, hmore⟩ := ih (dst ++ [c]) (took ++ [c]) (h.advance hunread)
            (by simp only [List.length_append, List.length_singleton]; omega)
          refine ⟨c :: more, ?_, ?_, ?_, ?_, hmore.count⟩
          · rw [hmore.took, List.append_assoc, List.singleton_append]
          · have hinput := hmore.input
            rwa [Nat.add_assoc, Nat.add_comm 1] at hinput
          · rw [hunread]
            have hrest : more <+: ed.committed.drop (ed.taken + 1) := hmore.next
            rw [← List.drop_drop, hunread] at hrest
            exact List.cons_prefix_cons.mpr ⟨rfl, hrest⟩
          · rcases hmore.dst with hdst | ⟨hdst, _⟩
            · rw [hdst, List.append_assoc, List.singleton_append]
              exact .inl rfl
            · simp at hdst

theorem readLoop_ctrlD (target n : Nat) (dst took pre post : List UInt8) (h : s.Shows ed)
    (hcount : dst.length + n = target) (hunread : s.unread = pre ++ ctrl 'D' :: post)
    (hpre : ∀ c ∈ pre, c ≠ ctrl 'D' ∧ c ≠ ascii '\n') (hlen : pre.length < n) :
    let q := readLoop target n dst took s
    q.stop = .returned ∧ q.dst = dst ++ pre ∧
      q.took = took ++ pre ++ (if dst ++ pre = [] then [ctrl 'D'] else []) := by
  rw [h.unread] at hunread
  induction pre generalizing n dst took s ed with
  | nil =>
    obtain ⟨n, rfl⟩ : ∃ k, n = k + 1 := ⟨n - 1, by simp at hlen; omega⟩
    rw [readLoop, if_neg (by rw [h.read_iff, hunread]; simp), h.next hunread, if_pos rfl]
    by_cases hdst : dst = []
    · subst dst
      rw [if_neg (by simp at hcount; omega)]
      simp
    · have hpos := List.length_pos_iff.mpr hdst
      rw [if_pos (by omega)]
      simp [hdst]
  | cons c pre ih =>
    obtain ⟨n, rfl⟩ : ∃ k, n = k + 1 := ⟨n - 1, by simp at hlen; omega⟩
    obtain ⟨hD, hn⟩ := hpre c List.mem_cons_self
    rw [readLoop, if_neg (by rw [h.read_iff, hunread]; simp), h.next hunread, if_neg hD, if_neg hn]
    have hrest : ed.committed.drop (ed.taken + 1) = pre ++ ctrl 'D' :: post := by
      rw [← List.drop_drop, hunread]
      rfl
    obtain ⟨hstop, hdst, htook⟩ := ih n (dst ++ [c]) (took ++ [c]) (h.advance hunread)
      (by simp only [List.length_append, List.length_singleton]; omega)
      hrest (fun b hb => hpre b (List.mem_cons_of_mem _ hb)) (by simpa using hlen)
    refine ⟨hstop, ?_, ?_⟩
    · rw [hdst, List.append_assoc, List.singleton_append]
    · rw [htook]
      simp

theorem edited_append (history more : List Act) :
    edited (history ++ more) = more.foldl Editor.act (edited history) := List.foldl_append

theorem Editor.key_grows (ed : Editor) (c : UInt8) :
    ed.committed <+: (ed.key c).committed ∧ (ed.key c).taken = ed.taken := by
  have happend : ∀ c, ed.committed <+: (ed.append c).committed ∧ (ed.append c).taken = ed.taken := by
    intro c
    rw [Editor.append]
    split
    · exact ⟨List.prefix_append .., rfl⟩
    · exact ⟨List.prefix_rfl, rfl⟩
  rw [Editor.key]
  split
  · exact ⟨List.prefix_rfl, rfl⟩
  split
  · exact ⟨List.prefix_rfl, rfl⟩
  split
  · exact ⟨List.prefix_rfl, rfl⟩
  split
  · exact ⟨List.prefix_rfl, rfl⟩
  · exact happend _

theorem foldl_take (ed : Editor) (took : List UInt8) :
    (took.map Act.take).foldl Editor.act ed = { ed with taken := ed.taken + took.length } := by
  induction took generalizing ed with
  | nil => rfl
  | cons c took ih =>
    rw [List.map_cons, List.foldl_cons, ih, List.length_cons, Editor.act, Nat.add_comm took.length,
      ← Nat.add_assoc]

theorem takes_keys (history : List Act) (keys : List UInt8) :
    takes (history ++ keys.map Act.key) = takes history := by
  have hnone : takes (keys.map Act.key) = [] := by
    rw [takes, List.filterMap_map]
    exact List.filterMap_eq_nil_iff.mpr fun _ _ => rfl
  rw [takes, List.filterMap_append, ← takes, ← takes, hnone, List.append_nil]

theorem takes_took (history : List Act) (took : List UInt8) :
    takes (history ++ took.map Act.take) = takes history ++ took := by
  simp only [takes, List.filterMap_append, List.filterMap_map, Function.comp_def,
    List.filterMap_some]

variable {P : Type} [DecidableEq P]

/-- The call of `consoleread` that an event starts or takes up again. -/
def call (s : Console P) : Event P → Option (P × Reading)
  | .intr _ => none
  | .read p n _ => if s.reading p = none then some (p, ⟨n.toNat, n.toNat, []⟩) else none
  | .resume p _ => (s.reading p).map (p, ·)

/-- `p`, in its call or just returned from it, has copied out `d`. -/
def copied (s : Console P) (p : P) (d : List UInt8) : Prop :=
  (∃ x, s.reading p = some x ∧ x.dst = d) ∨ ∃ v, s.results.head? = some (p, ⟨v, d⟩)

/-- The buffer shows the editor that the history describes, and the bytes taken are the first of
its output. -/
structure Follows (s : Console P) : Prop where
  shows : s.input.Shows (edited s.history)
  takes : takes s.history = (edited s.history).committed.take (edited s.history).taken
  count : ∀ p x, s.reading p = some x → x.dst.length + x.n = x.target

namespace Follows

variable {s s' : Console P} {p : P} {x : Reading}

omit [DecidableEq P] in
theorem init : Follows (Console.init : Console P) where
  shows := Input.Shows.init
  takes := rfl
  count _ _ h := nomatch h

section

variable (h : Follows s)
include h

omit [DecidableEq P] in
theorem keys (keys : List UInt8) :
    Follows { s with
      input := keys.foldl Input.key s.input
      history := s.history ++ keys.map Act.key } := by
  induction keys generalizing s with
  | nil => simpa using h
  | cons c keys ih =>
    have hact : edited (s.history ++ [Act.key c]) = (edited s.history).key c := edited_append ..
    have hone : Follows { s with input := s.input.key c, history := s.history ++ [.key c] } := by
      obtain ⟨⟨more, hmore⟩, htaken⟩ := (edited s.history).key_grows c
      refine ⟨?_, ?_, h.count⟩
      · rw [hact]
        exact h.shows.key c
      · have hkeys := takes_keys s.history [c]
        rw [List.map_singleton] at hkeys
        rw [hact, htaken, hkeys, h.takes, ← hmore, List.take_append_of_le_length h.shows.taken]
    simpa using ih hone

theorem run (hx : x.dst.length + x.n = x.target) (killed : Bool) :
    Follows (s.run p killed x) := by
  obtain ⟨more, hmore⟩ := readLoop_reads x.target x.n x.dst [] h.shows hx
  have htook : (readLoop x.target x.n x.dst [] s.input).took = more := hmore.took
  have hedited : edited (s.history ++ more.map Act.take) =
      { edited s.history with taken := (edited s.history).taken + more.length } := by
    rw [edited_append, foldl_take]
  have hshows : (readLoop x.target x.n x.dst [] s.input).input.Shows
      (edited (s.history ++ more.map Act.take)) := by
    rw [hedited]
    exact hmore.input
  have htakes : Console.takes (s.history ++ more.map Act.take) =
      (edited (s.history ++ more.map Act.take)).committed.take
        (edited (s.history ++ more.map Act.take)).taken := by
    rw [hedited, takes_took, h.takes, List.take_add, ← List.prefix_iff_eq_take.mp hmore.next]
  have hcount : ∀ y : Option Reading, (∀ z, y = some z → z.dst.length + z.n = z.target) →
      ∀ q z, Function.update s.reading p y q = some z → z.dst.length + z.n = z.target := by
    intro y hy q z hz
    rcases eq_or_ne q p with rfl | hne
    · rw [Function.update_self] at hz
      exact hy z hz
    · rw [Function.update_of_ne hne] at hz
      exact h.count q z hz
  rw [Console.run]
  dsimp only
  rw [htook]
  split
  · exact ⟨hshows, htakes, hcount none nofun⟩
  · split
    · exact ⟨hshows, htakes, hcount none nofun⟩
    · refine ⟨hshows, htakes, hcount _ ?_⟩
      rintro z ⟨⟩
      exact hmore.count

theorem of_call {e : Event P} (hcall : s.call e = some (p, x)) (hs : s.step e = .next s') :
    x.dst.length + x.n = x.target ∧ ∃ killed, s' = s.run p killed x := by
  cases e with
  | intr keys => cases hcall
  | read q n killed =>
    by_cases hq : s.reading q = none
    · rw [call, if_pos hq] at hcall
      rw [step, if_pos hq] at hs
      cases hcall
      cases hs
      exact ⟨Nat.zero_add _, killed, rfl⟩
    · rw [call, if_neg hq] at hcall
      cases hcall
  | resume q killed =>
    cases hq : s.reading q with
    | none =>
      rw [call, hq] at hcall
      cases hcall
    | some y =>
      rw [call, hq] at hcall
      rw [step, hq] at hs
      cases hcall
      cases hs
      exact ⟨h.count _ _ hq, killed, rfl⟩

theorem step (e : Event P) (hs : s.step e = .next s') : Follows s' := by
  cases hcall : s.call e with
  | some c =>
    obtain ⟨hx, killed, rfl⟩ := h.of_call hcall hs
    exact h.run hx killed
  | none =>
    cases e with
    | intr keys =>
      cases hs
      exact h.keys keys
    | read q n killed =>
      by_cases hq : s.reading q = none
      · rw [call, if_pos hq] at hcall
        cases hcall
      · rw [Console.step, if_neg hq] at hs
        cases hs
    | resume q killed =>
      cases hq : s.reading q with
      | none =>
        rw [Console.step, hq] at hs
        cases hs
      | some y =>
        rw [call, hq] at hcall
        cases hcall

theorem run_copied (hx : x.dst.length + x.n = x.target) (killed : Bool) :
    ∃ took d, (s.run p killed x).history = s.history ++ took.map Act.take ∧
      (s.run p killed x).copied p d ∧
      (d = x.dst ++ took ∨ x.dst = [] ∧ d = [] ∧ took = [ctrl 'D']) := by
  obtain ⟨more, hmore⟩ := readLoop_reads x.target x.n x.dst [] h.shows hx
  refine ⟨more, (readLoop x.target x.n x.dst [] s.input).dst, ?_, ?_, hmore.dst⟩
  · rw [Console.run, hmore.took, List.nil_append]
    dsimp only
    split
    · rfl
    · split <;> rfl
  · rw [Console.run]
    dsimp only
    split
    · exact .inr ⟨_, rfl⟩
    · split
      · exact .inr ⟨_, rfl⟩
      · exact .inl ⟨_, Function.update_self .., rfl⟩

theorem run_ctrlD (hx : x.dst.length + x.n = x.target) (killed : Bool) {pre post : List UInt8}
    (hunread : s.input.unread = pre ++ ctrl 'D' :: post)
    (hpre : ∀ c ∈ pre, c ≠ ctrl 'D' ∧ c ≠ ascii '\n') (hlen : pre.length < x.n) :
    (s.run p killed x).results =
        (p, ⟨(x.dst ++ pre).length, x.dst ++ pre⟩) :: s.results ∧
      (s.run p killed x).input.unread = if x.dst ++ pre = [] then post else ctrl 'D' :: post := by
  obtain ⟨more, hmore⟩ := readLoop_reads x.target x.n x.dst [] h.shows hx
  obtain ⟨hstop, hdst, htook⟩ :=
    readLoop_ctrlD x.target x.n x.dst [] pre post h.shows hx hunread hpre hlen
  simp only [Console.run, hstop]
  constructor
  · have hcount := hmore.count
    rw [hdst] at hcount
    simp only [finish, hdst, List.cons.injEq, Prod.mk.injEq, Result.mk.injEq, and_true, true_and]
    omega
  · have hmore' : more = pre ++ (if x.dst ++ pre = [] then [ctrl 'D'] else []) := by
      rw [← List.nil_append more, ← hmore.took, htook, List.nil_append]
    rw [finish, hmore.input.unread]
    dsimp only
    rw [← List.drop_drop, ← h.shows.unread, hunread, hmore']
    split
    · simp
    · simp

end

end Follows

/-- In every run the indexes are in order and the buffer is never overfull, whatever was consumed
and is yet to be read is the output of the line editor, and each call copies out what it takes; a
call that meets a `^D` returns what it has, and takes the `^D` only if it has nothing. -/
theorem line_discipline {s : Console P}
    (h : Reach (Console.step (P := P)) (fun _ _ => True) Console.init s) :
    sub s.input.w s.input.r ≤ sub s.input.e s.input.r ∧
    sub s.input.e s.input.r ≤ INPUT_BUF ∧
    takes s.history ++ s.input.unread = (edited s.history).committed ∧
    ∀ e p x s', s.call e = some (p, x) → s.step e = .next s' →
      (∃ took d, s'.history = s.history ++ took.map Act.take ∧ s'.copied p d ∧
        (d = x.dst ++ took ∨ x.dst = [] ∧ d = [] ∧ took = [ctrl 'D'])) ∧
      ∀ pre post, s.input.unread = pre ++ ctrl 'D' :: post →
        (∀ c ∈ pre, c ≠ ctrl 'D' ∧ c ≠ ascii '\n') → pre.length < x.n →
        s'.results = (p, ⟨(x.dst ++ pre).length, x.dst ++ pre⟩) :: s.results ∧
        s'.input.unread = if x.dst ++ pre = [] then post else ctrl 'D' :: post := by
  have hf : Follows s := h.invariant Follows.init fun _ e _ hf _ hs => hf.step e hs
  refine ⟨?_, ?_, ?_, ?_⟩
  · rw [hf.shows.unread_length, hf.shows.held_eq, Editor.held]
    omega
  · rw [hf.shows.held_eq]
    exact hf.shows.held_le
  · rw [hf.takes, hf.shows.unread, List.take_append_drop]
  · intro e p x s' hcall hs
    obtain ⟨hx, killed, rfl⟩ := hf.of_call hcall hs
    exact ⟨hf.run_copied hx killed,
      fun pre post hunread hpre hlen => hf.run_ctrlD hx killed hunread hpre hlen⟩

/-- `a`, `b`, backspace and `^D` are typed, and a read of 5 bytes returns `a`. -/
theorem line_discipline_eof : ∃ s : Console Unit,
    runEvents Console.step Console.init
      [.intr [ascii 'a', ascii 'b', ctrl 'H', ctrl 'D'], .read () 5 false] = .next s ∧
    s.results = [((), ⟨1, [ascii 'a']⟩)] ∧
    takes s.history ++ s.input.unread = (edited s.history).committed :=
  ⟨_, rfl, rfl, (line_discipline (Reach.of_runEvents .init
    [.intr [ascii 'a', ascii 'b', ctrl 'H', ctrl 'D'], .read () 5 false]
    (Along.of_forall (fun _ _ => trivial) _ _) rfl)).2.2.1⟩

end Xv6.Console
