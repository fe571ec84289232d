import Xv6.Sh.Complete

/-!
# The parser and the grammar

The words of a returned tree are read from memory after `nulterminate`; printed trees derive; and
`parsecmd` accepts what the grammar derives.
-/

namespace Xv6

namespace Sh

theorem foldl_clear_apply (order : List Span) (mem : Nat → UInt8) (k : Nat) :
    order.foldl (fun mem w => clear mem w.eq) mem k =
      if k ∈ order.map (·.eq.length) then 0 else mem k := by
  induction order generalizing mem with
  | nil => rfl
  | cons w order ih =>
    rw [List.foldl_cons, ih]
    by_cases hk : k = w.eq.length <;> simp [clear, hk]

theorem nulterminate_apply (cmd : Cmd Span) (mem : Nat → UInt8) (k : Nat) :
    nulterminate cmd mem k = if k ∈ cmd.spans.map (·.eq.length) then 0 else mem k := by
  induction cmd generalizing mem with
  | exec argv => exact foldl_clear_apply argv mem k
  | redir c file mode fd ih =>
    rw [nulterminate, clear, Function.update_apply, ih]
    by_cases hk : k = file.eq.length <;> simp [Cmd.spans, hk]
  | pipe l r ihl ihr | list l r ihl ihr =>
    rw [nulterminate, ihr, ihl, Cmd.spans, List.map_append]
    by_cases hk : k ∈ r.spans.map (·.eq.length) <;> simp [hk]
  | back c ih => exact ih mem

variable {cmd : Cmd Span}

theorem foldl_clear_eq {order : List Span} (h : ∀ w, w ∈ order ↔ w ∈ cmd.spans)
    (mem : Nat → UInt8) :
    order.foldl (fun mem w => clear mem w.eq) mem = nulterminate cmd mem := by
  funext k
  rw [foldl_clear_apply, nulterminate_apply]
  simp only [List.mem_map, h]

theorem memory_suffix {s p : List UInt8} (h : p <:+ s) : memory s p.length = p.headD 0 := by
  obtain ⟨pre, rfl⟩ := h
  simp [memory]

theorem nulterminate_word {s p : Ptr} (hspans : ∀ w ∈ cmd.spans, w.Within s) {c : UInt8}
    (hp : c :: p <:+ s) (hc : wordByte c = true) :
    nulterminate cmd (memory s) (p.length + 1) = c := by
  rw [nulterminate_apply, if_neg, ← List.length_cons (a := c), memory_suffix hp]
  · rfl
  · intro hmem
    obtain ⟨w, hw, hlen⟩ := List.mem_map.mp hmem
    have hwithin := hspans w hw
    have heq : w.eq = c :: p :=
      (List.suffix_of_suffix_length_le (hwithin.stop.trans hwithin.start) hp hlen.le).eq_of_length
        hlen
    have hend := hwithin.maximal c (by simp [heq])
    simp [hc] at hend

variable {s : List UInt8}

theorem cstrAt_word (hs : (0 : UInt8) ∉ s) (hspans : ∀ w ∈ cmd.spans, w.Within s) {w : Span}
    (hw : w ∈ cmd.spans) :
    cstrAt (nulterminate cmd (memory s)) w.q.length = w.word := by
  have hwithin := hspans w hw
  have hend : nulterminate cmd (memory s) w.eq.length = 0 := by
    rw [nulterminate_apply, if_pos (List.mem_map.mpr ⟨w, hw, rfl⟩)]
  -- From any point of the word on.
  have hfrom (p : Ptr) (hp : p <:+ s) (hstop : w.eq <:+ p)
      (hbytes : ∀ c ∈ p.take (p.length - w.eq.length), wordByte c = true) :
      cstrAt (nulterminate cmd (memory s)) p.length = p.take (p.length - w.eq.length) := by
    induction p with
    | nil => simp [cstrAt]
    | cons c p ih =>
      rcases List.suffix_cons_iff.mp hstop with heq | hstop'
      · rw [heq] at hend
        rw [List.length_cons] at hend
        simp [cstrAt, hend, heq]
      · have hlen : (c :: p).length - w.eq.length = (p.length - w.eq.length) + 1 := by
          have hle := hstop'.length_le
          simp only [List.length_cons]
          omega
        rw [hlen, List.take_succ_cons] at hbytes ⊢
        have hc := nulterminate_word hspans hp (hbytes c List.mem_cons_self)
        have hne : c ≠ 0 := by
          rintro rfl
          exact hs (hp.subset List.mem_cons_self)
        rw [List.length_cons, cstrAt, hc, if_neg hne, ih ((List.suffix_cons c p).trans hp) hstop'
          fun d hd => hbytes d (List.mem_cons_of_mem _ hd)]
  exact hfrom w.q hwithin.start hwithin.stop hwithin.bytes

theorem Cmd.spans_map {W V : Type} (f : W → V) (c : Cmd W) : (c.map f).spans = c.spans.map f := by
  induction c with
  | exec argv => rfl
  | redir c file mode fd ih => simp [map, spans, ih]
  | pipe l r ihl ihr | list l r ihl ihr => simp [map, spans, ihl, ihr]
  | back c ih => exact ih

theorem Cmd.map_congr {W V : Type} {f g : W → V} {c : Cmd W} (h : ∀ w ∈ c.spans, f w = g w) :
    c.map f = c.map g := by
  induction c with
  | exec argv => exact congrArg exec (List.map_congr_left h)
  | redir c file mode fd ih =>
    simp only [spans, List.mem_append, List.mem_singleton] at h
    rw [map, map, ih fun w hw => h w (.inl hw), h file (.inr rfl)]
  | pipe l r ihl ihr | list l r ihl ihr =>
    simp only [spans, List.mem_append] at h
    rw [map, map, ihl fun w hw => h w (.inl hw), ihr fun w hw => h w (.inr hw)]
  | back c ih => rw [map, map, ih h]

theorem tokens_space (s : List UInt8) : tokens (ch ' ' :: s) = tokens s :=
  lex_space (by decide) [] s

theorem tokens_text {t : Tok} (ht : ∀ w, t = .word w → IsWord w) (s : List UInt8) :
    tokens (t.text ++ ch ' ' :: s) = t :: tokens s := by
  cases t with
  | word w =>
    obtain ⟨hne, hbytes⟩ := ht w rfl
    cases w with
    | nil => exact absurd rfl hne
    | cons c w =>
      have hc := (hbytes c List.mem_cons_self).2
      have hw : ∀ d ∈ w, wordByte d = true := fun d hd => (hbytes d (List.mem_cons_of_mem _ hd)).2
      have hblank : ¬ wordByte (ch ' ') = true := by decide
      rw [Tok.text, List.cons_append, tokens, lex_wordByte hc, List.nil_append, lex_word,
        List.takeWhile_append_of_pos hw, List.dropWhile_append_of_pos hw,
        List.takeWhile_cons_of_neg hblank, List.dropWhile_cons_of_neg hblank, tokens_space]
      simp
  | gt =>
    rw [Tok.text, List.singleton_append, tokens_gt]
    simp only [show ¬ (ch ' ' = ch '>') by decide, if_false, tokens_space]
  | gtgt =>
    rw [Tok.text, List.cons_append, List.singleton_append, tokens_gt]
    simp only [if_true, tokens_space]
  | _ =>
    rw [Tok.text, List.singleton_append, tokens_op (by decide) rfl (by decide), tokens_space]

variable {ts : List Tok}

theorem tokens_print (hts : ∀ w, .word w ∈ ts → IsWord w) :
    tokens (ts.flatMap fun t => t.text ++ [ch ' ']) = ts := by
  induction ts with
  | nil => rfl
  | cons t ts ih =>
    rw [List.flatMap_cons, List.append_assoc, List.singleton_append, tokens_text,
      ih fun w hw => hts w (List.mem_cons_of_mem _ hw)]
    rintro w rfl
    exact hts w List.mem_cons_self

theorem mem_paren {bare : Bool} {w : Word} (h : .word w ∈ paren bare ts) :
    .word w ∈ ts := by
  unfold paren at h
  split at h
  · exact h
  · simpa using h

theorem isWord_of_mem_toks {c : Cmd Word} (hc : c.WellFormed) {w : Word} (hw : .word w ∈ c.toks) :
    IsWord w := by
  induction c with
  | exec argv =>
    simp only [Cmd.toks, List.mem_map, Tok.word.injEq, exists_eq_right] at hw
    exact hc.2 w hw
  | redir c file mode fd ih =>
    obtain ⟨hsub, hfile, -⟩ := hc
    rcases List.mem_append.mp hw with hw | hw
    · exact ih hsub (mem_paren hw)
    · have heq : w = file := by
        split_ifs at hw <;> simpa using hw
      exact heq ▸ hfile
  | pipe l r ihl ihr =>
    rcases List.mem_append.mp hw with hw | hw
    · exact ihl hc.1 (mem_paren hw)
    · exact ihr hc.2 (mem_paren (by simpa using hw))
  | list l r ihl ihr =>
    rcases List.mem_append.mp hw with hw | hw
    · exact ihl hc.1 (mem_paren hw)
    · exact ihr hc.2 (by simpa using hw)
  | back c ih =>
    rcases List.mem_append.mp hw with hw | hw
    · exact ih hc (mem_paren hw)
    · simp at hw

theorem zero_not_mem_print {c : Cmd Word} (hc : c.WellFormed) : (0 : UInt8) ∉ c.print := by
  intro hmem
  obtain ⟨t, ht, hzero⟩ := List.mem_flatMap.mp hmem
  rcases List.mem_append.mp hzero with hzero | hzero
  · cases t with
    | word w => exact ((isWord_of_mem_toks hc ht).2 0 hzero).1 rfl
    | _ => exact absurd hzero (by decide)
  · exact absurd hzero (by decide)

theorem Redirs.append {ts ts' : List Tok} {rs rs' : List Redir} (h : Redirs ts rs)
    (h' : Redirs ts' rs') : Redirs (ts ++ ts') (rs ++ rs') := by
  induction h with
  | nil => exact h'
  | cons hr _ ih => exact .cons hr ih

theorem Args.append_redirs {ts ts' : List Tok} {ws : List Word} {rs rs' : List Redir}
    (h : Args ts ws rs) (hne : ws ≠ []) (h' : Redirs ts' rs') : Args (ts ++ ts') ws (rs ++ rs') := by
  induction h with
  | nil => exact absurd rfl hne
  | @cons w ts₁ ts₂ rs₁ rs₂ ws hrs hargs ih =>
    cases hargs with
    | nil => simpa using Args.cons (w := w) (hrs.append h') .nil
    | cons hrs₂ hargs₂ =>
      have hrest := Args.cons (w := w) hrs (ih (List.cons_ne_nil _ _))
      simpa using hrest

theorem redirect_concat (rs : List Redir) (r : Redir) (c : Cmd Word) :
    redirect (rs ++ [r]) c = .redir (redirect rs c) r.file r.mode r.fd := redirect_append rs [r] c

theorem Derives.redir {c : Cmd Word} (h : Derives .exec ts c) (op : Tok) {w : Word} {r : Redir}
    (hr : op.redir w = some r) :
    Derives .exec (ts ++ [op, .word w]) (.redir c r.file r.mode r.fd) := by
  have hone : Redirs [op, .word w] [r] := .cons hr .nil
  cases h with
  | @block ts ts' c rs hline hrs =>
    have hblock := Derives.block hline (hrs.append hone)
    rw [redirect_concat] at hblock
    simpa using hblock
  | @simple ts ts' rs rs' ws hrs hargs hmax =>
    by_cases hws : ws = []
    · subst hws
      cases hargs
      have hsimple := Derives.simple (hrs.append hone) .nil hmax
      simp only [List.append_nil, redirect_concat] at hsimple
      simpa using hsimple
    · have hsimple := Derives.simple hrs (hargs.append_redirs hws hone) hmax
      rw [← List.append_assoc rs, redirect_concat] at hsimple
      simpa using hsimple

theorem args_words (ws : List Word) : Args (ws.map .word) ws [] := by
  induction ws with
  | nil => exact .nil
  | cons w ws ih => exact .cons .nil ih

theorem backs_back (n : Nat) (c : Cmd Word) : backs n (.back c) = .back (backs n c) := by
  induction n generalizing c with
  | zero => rfl
  | succ n ih => exact ih (.back c)

/-- `c` derives as a pipe followed by some `&`. -/
def DerivesBacks (ts : List Tok) (c : Cmd Word) : Prop :=
  ∃ n ts₀ c₀, Derives .pipe ts₀ c₀ ∧ ts = ts₀ ++ List.replicate n .amp ∧ c = backs n c₀

/-- How the tokens of a printed tree derive, with and without parentheses. -/
structure Printed (c : Cmd Word) : Prop where
  line : Derives .line c.toks c
  backs : c.isBack = true → DerivesBacks c.toks c
  pipe : c.isPipe = true → Derives .pipe c.toks c
  exec : c.isExec = true → Derives .exec c.toks c

namespace Printed

variable {c : Cmd Word}

theorem block (h : Printed c) : Derives .exec (.lpar :: (c.toks ++ [.rpar])) c :=
  Derives.block h.line .nil

theorem parenExec (h : Printed c) : Derives .exec (paren c.isExec c.toks) c := by
  unfold paren
  split
  · exact h.exec ‹_›
  · exact h.block

theorem parenPipe (h : Printed c) : Derives .pipe (paren c.isPipe c.toks) c := by
  unfold paren
  split
  · exact h.pipe ‹_›
  · exact .single h.block

theorem parenBacks (h : Printed c) : DerivesBacks (paren c.isBack c.toks) c := by
  unfold paren
  split
  · exact h.backs ‹_›
  · exact ⟨0, _, c, .single h.block, by simp, rfl⟩

theorem of_backs (h : DerivesBacks c.toks c) (hpipe : c.isPipe = true → Derives .pipe c.toks c)
    (hexec : c.isExec = true → Derives .exec c.toks c) : Printed c := by
  refine ⟨?_, fun _ => h, hpipe, hexec⟩
  obtain ⟨n, ts, c₀, hc₀, hts, hc⟩ := h
  rw [hts]
  exact hc ▸ .line n hc₀

theorem of_pipe (h : Derives .pipe c.toks c) (hexec : c.isExec = true → Derives .exec c.toks c) :
    Printed c :=
  of_backs ⟨0, _, c, h, by simp, rfl⟩ (fun _ => h) hexec

theorem of_wellFormed (h : c.WellFormed) : Printed c := by
  induction c with
  | exec argv =>
    have hexec : Derives .exec (Cmd.toks (.exec argv)) (.exec argv) :=
      .simple .nil (args_words argv) h.1
    exact of_pipe (.single hexec) fun _ => hexec
  | redir c file mode fd ih =>
    have hexec : Derives .exec (Cmd.toks (.redir c file mode fd)) (.redir c file mode fd) := by
      rcases h.2.2 with ⟨rfl, rfl⟩ | ⟨rfl, rfl⟩
      · exact (ih h.1).parenExec.redir .lt rfl
      · exact (ih h.1).parenExec.redir .gt rfl
    exact of_pipe (.single hexec) fun _ => hexec
  | pipe l r ihl ihr => exact of_pipe (.pipe (ihl h.1).parenExec (ihr h.2).parenPipe) nofun
  | list l r ihl ihr =>
    refine ⟨?_, nofun, nofun, nofun⟩
    obtain ⟨n, ts, c₀, hc₀, hts, hl⟩ := (ihl h.1).parenBacks
    have hlines := Derives.lines n hc₀ (ihr h.2).line
    rw [← hl, ← List.append_assoc, ← hts] at hlines
    exact hlines
  | back c ih =>
    obtain ⟨n, ts, c₀, hc₀, hts, hc⟩ := (ih h).parenBacks
    refine of_backs ⟨n + 1, ts, c₀, hc₀, ?_, ?_⟩ nofun nofun
    · rw [Cmd.toks, hts, List.replicate_succ', List.append_assoc]
    · rw [Sh.backs, backs_back, ← hc]

end Printed

variable {fuel : Nat}

theorem parsecmd_ne_fuel (hs : (0 : UInt8) ∉ s)
    (hfuel : 4 * s.length + 4 ≤ fuel) : parsecmd fuel s ≠ .error .fuel := by
  have hparse := (wp_parse fuel).1 s hs hfuel
  have hrun : (parseline fuel).run s = parseline fuel s := rfl
  rw [parsecmd, hrun]
  cases h : parseline fuel s with
  | error e =>
    have hne := Run.wp_error hparse h
    intro heq
    exact hne (Except.error.inj heq)
  | ok r =>
    intro heq
    change (if skip r.2 ≠ [] then throw (Stop.panic "syntax") else _) = _ at heq
    split_ifs at heq <;> cases heq

variable {t : Cmd Word}

section

variable (hs : (0 : UInt8) ∉ s) (hfuel : 4 * s.length + 4 ≤ fuel)
include hs hfuel

/-- What an accepted string was parsed to, before and after its words were ended in memory. -/
theorem exists_of_parsecmd (h : parsecmd fuel s = .ok t) :
    ∃ cmd rest, parseline fuel s = .ok (cmd, rest) ∧ (∀ w ∈ cmd.spans, w.Within s) ∧
      t = cmd.map Span.word ∧ Derives .line (tokens s) t := by
  have hparse := (wp_parse fuel).1 s hs hfuel
  have hrun : (parseline fuel).run s = parseline fuel s := rfl
  rw [parsecmd, hrun] at h
  cases hr : parseline fuel s with
  | error e =>
    rw [hr] at h
    cases h
  | ok r =>
    obtain ⟨cmd, rest⟩ := r
    obtain ⟨-, hspans, ts, htokens, hderives⟩ := Run.wp_ok hparse hr
    rw [hr] at h
    change (if skip rest ≠ [] then throw (Stop.panic "syntax") else _) = _ at h
    split_ifs at h with hrest
    have hnil : tokens rest = [] := by rw [← tokens_skip, not_not.mp hrest]; rfl
    rw [hnil, List.append_nil] at htokens
    have hmap := Cmd.map_congr fun w hw => cstrAt_word hs hspans hw
    have heq : (cmd.map fun w => cstrAt (nulterminate cmd (memory s)) w.q.length) = t :=
      Except.ok.inj h
    rw [hmap] at heq
    rw [htokens, ← heq]
    exact ⟨cmd, rest, rfl, hspans, rfl, hderives⟩

theorem derives_of_parsecmd (h : parsecmd fuel s = .ok t) :
    Derives .line (tokens s) t := by
  obtain ⟨_, _, -, -, -, hderives⟩ := exists_of_parsecmd hs hfuel h
  exact hderives

theorem parsecmd_of_derives (h : Derives .line (tokens s) t) :
    parsecmd fuel s = .ok t := by
  have hparse := (wp_parse fuel).1 s hs hfuel
  have hread : Run.wp (· = .fuel) (parseline fuel) (Read t []) s :=
    wp_of_derives h hs (List.append_nil _).symm nofun
  have hrun : (parseline fuel).run s = parseline fuel s := rfl
  rw [parsecmd, hrun]
  cases hr : parseline fuel s with
  | error e =>
    have hne := Run.wp_error hparse hr
    exact absurd (Run.wp_error hread hr) hne
  | ok r =>
    obtain ⟨cmd, rest⟩ := r
    obtain ⟨-, hspans, -⟩ := Run.wp_ok hparse hr
    obtain ⟨hzero, hnil, hmap⟩ := Run.wp_ok hread hr
    have hskip := skip_eq_nil hnil hzero
    change (if skip rest ≠ [] then throw (Stop.panic "syntax") else _) = _
    rw [if_neg (not_not_intro hskip)]
    have hwords := Cmd.map_congr fun w hw => cstrAt_word hs hspans hw
    exact congrArg Except.ok (hwords.trans hmap)

end

/-- `parsecmd` returns or panics on every string; it returns exactly the trees of the grammar, at
most one for each string; and it reads back what is printed. -/
theorem parsecmd_exact : (∀ s fuel, (0 : UInt8) ∉ s → 4 * s.length + 4 ≤ fuel →
      parsecmd fuel s ≠ .error .fuel ∧
      ∀ t, parsecmd fuel s = .ok t ↔ Derives .line (tokens s) t) ∧
    (∀ s t t', (0 : UInt8) ∉ s → Derives .line (tokens s) t → Derives .line (tokens s) t' → t = t') ∧
    ∀ t fuel, t.WellFormed → 4 * t.print.length + 4 ≤ fuel → parsecmd fuel t.print = .ok t := by
  refine ⟨?_, ?_, ?_⟩
  · intro s fuel hs hfuel
    exact ⟨parsecmd_ne_fuel hs hfuel,
      fun t => ⟨derives_of_parsecmd hs hfuel, parsecmd_of_derives hs hfuel⟩⟩
  · intro s t t' hs ht ht'
    have hparse := parsecmd_of_derives hs le_rfl ht
    exact Except.ok.inj (hparse.symm.trans (parsecmd_of_derives hs le_rfl ht'))
  · intro t fuel ht hfuel
    refine parsecmd_of_derives (zero_not_mem_print ht) hfuel ?_
    rw [Cmd.print, tokens_print fun w hw => isWord_of_mem_toks ht hw]
    exact (Printed.of_wellFormed ht).line

/-- `a < f | ( b ; c ) &` is printed and read back. -/
theorem parsecmd_exact_block : ∃ t : Cmd Word,
      t = .back (.pipe (.redir (.exec [[ch 'a']]) [ch 'f'] O_RDONLY 0)
        (.list (.exec [[ch 'b']]) (.exec [[ch 'c']]))) ∧
      parsecmd 100 t.print = .ok t ∧ Derives .line (tokens t.print) t := by
  refine ⟨_, rfl, ?_⟩
  have hparse := parsecmd_exact.2.2 (.back (.pipe (.redir (.exec [[ch 'a']]) [ch 'f'] O_RDONLY 0)
    (.list (.exec [[ch 'b']]) (.exec [[ch 'c']])))) 100
    (by simp only [Cmd.WellFormed, IsWord]; decide +kernel) (by decide +kernel)
  exact ⟨hparse, ((parsecmd_exact.1 _ 100 (by decide +kernel) (by decide +kernel)).2 _).mp hparse⟩

/-- After `nulterminate` the caller of `parsecmd` reads, from the start of each word of the tree, the text
up to the end that `gettoken` has found; so it would, had the words been ended in any other order. -/
theorem nulterminate_recovers {s : List UInt8} (hs : (0 : UInt8) ∉ s) {fuel : Nat}
    (hfuel : 4 * s.length + 4 ≤ fuel) {t : Cmd Word} (h : parsecmd fuel s = .ok t) :
    ∃ cmd rest, parseline fuel s = .ok (cmd, rest) ∧ t = cmd.map Span.word ∧
      (∀ w ∈ cmd.spans, w.Within s ∧ cstrAt (nulterminate cmd (memory s)) w.q.length = w.word) ∧
      ∀ order : List Span, (∀ w, w ∈ order ↔ w ∈ cmd.spans) →
        ∀ w ∈ cmd.spans,
          cstrAt (order.foldl (fun mem w => clear mem w.eq) (memory s)) w.q.length = w.word := by
  obtain ⟨cmd, rest, hparse, hspans, ht, -⟩ := exists_of_parsecmd hs hfuel h
  refine ⟨cmd, rest, hparse, ht, fun w hw => ⟨hspans w hw, cstrAt_word hs hspans hw⟩, ?_⟩
  intro order horder w hw
  rw [foldl_clear_eq horder]
  exact cstrAt_word hs hspans hw

/-- `a<f|b`, where each word ends at an operator -/
theorem nulterminate_recovers_tight :
    ∃ cmd rest, parseline 30 [ch 'a', ch '<', ch 'f', ch '|', ch 'b'] = .ok (cmd, rest) ∧
      (cmd.spans.map fun w =>
        cstrAt (nulterminate cmd (memory [ch 'a', ch '<', ch 'f', ch '|', ch 'b'])) w.q.length) =
        [[ch 'a'], [ch 'f'], [ch 'b']] := by
  obtain ⟨cmd, rest, hparse, ht, hwords, -⟩ := nulterminate_recovers
    (s := [ch 'a', ch '<', ch 'f', ch '|', ch 'b']) (by decide +kernel)
    (show 4 * [ch 'a', ch '<', ch 'f', ch '|', ch 'b'].length + 4 ≤ 30 by decide)
    (t := .pipe (.redir (.exec [[ch 'a']]) [ch 'f'] O_RDONLY 0) (.exec [[ch 'b']]))
    (by decide +kernel)
  refine ⟨cmd, rest, hparse, ?_⟩
  rw [List.map_congr_left fun w hw => (hwords w hw).2, ← Cmd.spans_map, ← ht]
  rfl

end Sh

end Xv6
