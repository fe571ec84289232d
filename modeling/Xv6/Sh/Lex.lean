import Xv6.Sh.Grammar
import Mathlib.Data.List.TakeWhile
import Mathlib.Tactic.Common

/-!
# Tokens as the parse functions see them

`gettoken` takes the first token off the string, `peek` looks at its first byte.
-/

namespace Xv6

namespace Sh

variable {c : UInt8}

theorem opTok_eq_none : opTok c = none ↔ symbols.contains c = false := by
  simp only [opTok, symbols]
  split_ifs <;> simp_all

theorem wordByte_iff : wordByte c = true ↔ whitespace.contains c = false ∧ opTok c = none := by
  rw [opTok_eq_none]
  simp [wordByte]

theorem lex_space (h : whitespace.contains c = true) (cur : Word) (s : List UInt8) :
    lex cur (c :: s) = flush cur ++ lex [] s := by
  rw [lex, if_pos h]

theorem lex_wordByte (h : wordByte c = true) (cur : Word) (s : List UInt8) :
    lex cur (c :: s) = lex (cur ++ [c]) s := by
  obtain ⟨hspace, hop⟩ := wordByte_iff.mp h
  rw [lex, if_neg (by rw [hspace]; exact Bool.false_ne_true), hop]

theorem lex_op (hspace : whitespace.contains c = false) (hop : opTok c ≠ none) (cur : Word)
    (s : List UInt8) : lex cur (c :: s) = flush cur ++ tokens (c :: s) := by
  obtain ⟨op, hop⟩ := Option.ne_none_iff_exists'.mp hop
  have hne : ¬ whitespace.contains c = true := by rw [hspace]; exact Bool.false_ne_true
  rw [tokens, lex.eq_2, lex.eq_2, if_neg hne, if_neg hne, hop]
  rfl

theorem lex_word (c : UInt8) (cur : Word) (s : List UInt8) :
    lex (c :: cur) s = .word (c :: cur ++ s.takeWhile wordByte) :: tokens (s.dropWhile wordByte) := by
  induction s generalizing cur with
  | nil => simp [lex, flush, tokens]
  | cons d s ih =>
    by_cases hd : wordByte d = true
    · rw [lex_wordByte hd, List.takeWhile_cons_of_pos hd, List.dropWhile_cons_of_pos hd,
        List.cons_append, ih]
      simp
    · rw [List.takeWhile_cons_of_neg hd, List.dropWhile_cons_of_neg hd, List.append_nil]
      by_cases hspace : whitespace.contains d = true
      · rw [tokens, lex_space hspace, lex_space hspace]
        rfl
      · have hop : opTok d ≠ none := fun hnone =>
          hd (wordByte_iff.mpr ⟨by simpa using hspace, hnone⟩)
        rw [lex_op (by simpa using hspace) hop]
        rfl

theorem tokens_skip (s : List UInt8) : tokens (skip s) = tokens s := by
  induction s with
  | nil => rfl
  | cons c s ih =>
    rw [skip]
    by_cases hc : whitespace.contains c = true
    · rw [List.dropWhile_cons_of_pos hc, tokens, tokens, lex_space hc]
      exact ih
    · rw [List.dropWhile_cons_of_neg hc]

/-- What `gettoken` returns for a token. -/
def Tok.code : Tok → UInt8
  | .lt => ch '<'
  | .gt => ch '>'
  | .gtgt => ch '+'
  | .bar => ch '|'
  | .amp => ch '&'
  | .semi => ch ';'
  | .lpar => ch '('
  | .rpar => ch ')'
  | .word _ => ch 'a'

/-- The symbol at which a token starts. -/
def Tok.symbol : Tok → UInt8
  | .gtgt => ch '>'
  | .word _ => 0
  | t => t.code

def Span.word (w : Span) : Word := w.q.take (w.q.length - w.eq.length)

/-- A word of the string `s`, as long as it can be. -/
structure Span.Within (w : Span) (s : Ptr) : Prop where
  start : w.q <:+ s
  stop : w.eq <:+ w.q
  bytes : ∀ c ∈ w.word, wordByte c = true
  maximal : ∀ c ∈ w.eq.head?, wordByte c = false

theorem Span.Within.mono {w : Span} {s t : Ptr} (h : w.Within s) (hs : s <:+ t) : w.Within t :=
  ⟨h.start.trans hs, h.stop, h.bytes, h.maximal⟩

/-- `tok` is the first token of `s`; the string goes on at `e`. -/
structure Taken (s : Ptr) (tok : Tok) (e : Ptr) : Prop where
  tokens : tokens s = tok :: tokens e
  start : ∃ c t, s = c :: t ∧ e <:+ t ∧ (tok.symbol = c ∨ tok.symbol = 0 ∧ wordByte c = true)
  word : ∀ w, tok = .word w → (⟨s, e⟩ : Span).Within s ∧ (⟨s, e⟩ : Span).word = w

theorem tokens_op {op : Tok} (hspace : whitespace.contains c = false) (hop : opTok c = some op)
    (hgt : c ≠ ch '>') (s : List UInt8) :
    tokens (c :: s) = op :: tokens s := by
  have hne : ¬ whitespace.contains c = true := by rw [hspace]; exact Bool.false_ne_true
  rw [tokens, lex.eq_2, if_neg hne, hop]
  cases s with
  | nil => rfl
  | cons d t => simp [flush, hgt, tokens]

theorem tokens_gt (s : List UInt8) :
    tokens (ch '>' :: s) =
      match s with
      | [] => [.gt]
      | d :: t => if d = ch '>' then .gtgt :: tokens t else .gt :: tokens (d :: t) := by
  have hop : opTok (ch '>') = some .gt := rfl
  have hne : ¬ whitespace.contains (ch '>') = true := by decide
  rw [tokens, lex.eq_2, if_neg hne, hop]
  cases s with
  | nil => rfl
  | cons d t => simp [flush, tokens]

theorem take_dropWhile {α : Type} (p : α → Bool) (l : List α) :
    l.take (l.length - (l.dropWhile p).length) = l.takeWhile p := by
  have hsplit := List.takeWhile_append_dropWhile (p := p) (l := l)
  have hlen : l.length - (l.dropWhile p).length = (l.takeWhile p).length := by
    have hlen := congrArg List.length hsplit
    rw [List.length_append] at hlen
    omega
  calc l.take (l.length - (l.dropWhile p).length)
      = (l.takeWhile p ++ l.dropWhile p).take (l.takeWhile p).length := by rw [hsplit, hlen]
    _ = l.takeWhile p := List.take_left

theorem scan_word {s : Ptr} (hc : c ≠ 0) (hword : wordByte c = true) :
    Taken (c :: s) (.word ((c :: s).takeWhile wordByte)) ((c :: s).dropWhile wordByte) ∧
      scan (c :: s) = (ch 'a', (c :: s).dropWhile wordByte) := by
  have hop := (wordByte_iff.mp hword).2
  refine ⟨⟨?_, ⟨c, s, rfl, ?_, .inr ⟨rfl, hword⟩⟩, ?_⟩, ?_⟩
  · rw [tokens, lex_wordByte hword, List.nil_append, lex_word, List.takeWhile_cons_of_pos hword,
      List.dropWhile_cons_of_pos hword]
    rfl
  · rw [List.dropWhile_cons_of_pos hword]
    exact List.dropWhile_suffix _
  · rintro w hw
    have hspan : (⟨c :: s, (c :: s).dropWhile wordByte⟩ : Span).word = w := by
      rw [Tok.word.injEq] at hw
      rw [← hw]
      exact take_dropWhile _ _
    refine ⟨⟨List.suffix_rfl, List.dropWhile_suffix _, ?_, ?_⟩, hspan⟩
    · rw [hspan, ← Tok.word.inj hw]
      intro d hd
      exact List.mem_takeWhile_imp hd
    · intro d hd
      have hnot := List.head?_dropWhile_not wordByte (c :: s)
      rw [Option.mem_def.mp hd] at hnot
      exact hnot
  · unfold opTok at hop
    split_ifs at hop
    rw [scan.eq_def]
    simp [*]

/-- What the `switch` of `gettoken` does at the start of a token. -/
theorem scan_taken {s : Ptr} (hc : c ≠ 0) (hspace : whitespace.contains c = false) :
    ∃ tok, Taken (c :: s) tok (scan (c :: s)).2 ∧ (scan (c :: s)).1 = tok.code := by
  by_cases hop : opTok c = none
  · obtain ⟨htaken, hscan⟩ := scan_word (s := s) hc (wordByte_iff.mpr ⟨hspace, hop⟩)
    rw [hscan]
    exact ⟨_, htaken, rfl⟩
  · obtain ⟨op, hop⟩ := Option.ne_none_iff_exists'.mp hop
    by_cases hgt : c = ch '>'
    · -- The byte after `>` decides between `>` and `>>`.
      subst hgt
      have hscan := tokens_gt s
      cases s with
      | nil => exact ⟨.gt, ⟨hscan, ⟨_, _, rfl, List.suffix_rfl, .inl rfl⟩, nofun⟩, rfl⟩
      | cons d t =>
        by_cases hd : d = ch '>'
        · subst hd
          exact ⟨.gtgt, ⟨hscan, ⟨_, _, rfl, List.suffix_cons _ _, .inl rfl⟩, nofun⟩, rfl⟩
        · have hs : scan (ch '>' :: d :: t) = (ch '>', d :: t) := by
            change (if d = ch '>' then (ch '+', t) else (ch '>', d :: t)) = _
            rw [if_neg hd]
          rw [hs]
          refine ⟨.gt, ⟨?_, ⟨_, _, rfl, List.suffix_rfl, .inl rfl⟩, nofun⟩, rfl⟩
          simpa [hd] using hscan
    · have hscan : scan (c :: s) = (c, s) ∧ op.code = c ∧ op.symbol = c ∧ ∀ w, op ≠ .word w := by
        unfold opTok at hop
        rw [scan.eq_def]
        split_ifs at hop <;> cases hop <;> simp_all [Tok.code, Tok.symbol]
      rw [hscan.1]
      exact ⟨op, ⟨tokens_op hspace hop hgt s, ⟨c, s, rfl, List.suffix_rfl, .inl hscan.2.2.1⟩,
        fun w hw => absurd hw (hscan.2.2.2 w)⟩, hscan.2.1.symm⟩

theorem skip_suffix (s : Ptr) : skip s <:+ s := List.dropWhile_suffix _

theorem skip_head {s t : Ptr} (h : skip s = c :: t) : whitespace.contains c = false := by
  have hnot := List.head?_dropWhile_not whitespace.contains s
  rw [skip] at h
  rw [h] at hnot
  exact hnot

theorem not_mem_of_suffix {s t : Ptr} (h : s <:+ t) (ht : (0 : UInt8) ∉ t) : (0 : UInt8) ∉ s :=
  fun hs => ht (h.subset hs)

variable {E : Stop → Prop} {s : Ptr}

/-- The first token starts with one of the symbols `toks`. -/
def starts (toks : List UInt8) : List Tok → Bool
  | [] => false
  | t :: _ => toks.contains t.symbol

theorem wp_peek (hs : (0 : UInt8) ∉ s) {toks : List UInt8} (hsymbols : toks ⊆ symbols)
    {Q : Bool → Ptr → Prop}
    (hQ : ∀ s', tokens s' = tokens s → s' <:+ s → Q (starts toks (tokens s)) s') :
    Run.wp E (peek toks) Q s := by
  have hskip := hQ (skip s) (tokens_skip s) (skip_suffix s)
  rw [← tokens_skip] at hskip
  rw [peek]
  simp only [Run.wp_bind, Run.wp_get, Run.wp_set]
  cases h : skip s with
  | nil =>
    rw [h] at hskip
    exact (Run.wp_pure ..).mpr hskip
  | cons c t =>
    have hc : c ≠ 0 := by
      rintro rfl
      exact not_mem_of_suffix (skip_suffix s) hs (by simp [h])
    obtain ⟨tok, htaken, -⟩ := scan_taken (s := t) hc (skip_head h)
    obtain ⟨d, r, hd, -, hsymbol⟩ := htaken.start
    obtain ⟨rfl, -⟩ := List.cons.inj hd
    rw [h, htaken.tokens, starts] at hskip
    have hsame : toks.contains tok.symbol = (decide (c ≠ 0) && toks.contains c) := by
      rcases hsymbol with hsymbol | ⟨hsymbol, hword⟩
      · simp [hsymbol, hc]
      · -- Neither the byte of a word nor 0 is a symbol.
        have hnot : c ∉ toks := fun hmem => by
          simp [wordByte, hsymbols hmem] at hword
        have hzero : (0 : UInt8) ∉ toks := fun hmem => absurd (hsymbols hmem) (by decide)
        simp [hsymbol, hnot, hzero]
    rw [hsame] at hskip
    exact (Run.wp_pure ..).mpr hskip

theorem skip_eq_nil (hnil : tokens s = []) (hs : (0 : UInt8) ∉ s) : skip s = [] := by
  cases h : skip s with
  | nil => rfl
  | cons c t =>
    have hc : c ≠ 0 := by
      rintro rfl
      exact not_mem_of_suffix (skip_suffix s) hs (by simp [h])
    obtain ⟨tok, htaken, -⟩ := scan_taken (s := t) hc (skip_head h)
    have htokens := htaken.tokens
    rw [← h, tokens_skip, hnil] at htokens
    cases htokens

theorem wp_gettoken_nil (hnil : tokens s = []) (hs : (0 : UInt8) ∉ s) {Q : Token → Ptr → Prop}
    (hQ : ∀ tok, tok.ret = 0 → Q tok []) : Run.wp E gettoken Q s := by
  rw [gettoken]
  simp only [Run.wp_bind, Run.wp_get, Run.wp_set, Run.wp_pure, skip_eq_nil hnil hs]
  exact hQ _ rfl

theorem wp_gettoken {t : Tok} {ts : List Tok} (hcons : tokens s = t :: ts) (hs : (0 : UInt8) ∉ s)
    {Q : Token → Ptr → Prop}
    (hQ : ∀ tok s', tok.ret = t.code → tokens s' = ts → s' <:+ s → s'.length < s.length →
      (∀ w, t = .word w → tok.span.Within s ∧ tok.span.word = w) → Q tok s') :
    Run.wp E gettoken Q s := by
  rw [gettoken]
  simp only [Run.wp_bind, Run.wp_get, Run.wp_set, Run.wp_pure]
  cases h : skip s with
  | nil =>
    rw [← tokens_skip, h] at hcons
    cases hcons
  | cons c r =>
    have hc : c ≠ 0 := by
      rintro rfl
      exact not_mem_of_suffix (skip_suffix s) hs (by simp [h])
    obtain ⟨tok, htaken, hcode⟩ := scan_taken (s := r) hc (skip_head h)
    have htokens := htaken.tokens
    rw [← h, tokens_skip, hcons, List.cons.injEq] at htokens
    obtain ⟨rfl, hrest⟩ := htokens
    obtain ⟨d, r', hd, hsuffix, -⟩ := htaken.start
    obtain ⟨-, rfl⟩ := List.cons.inj hd
    have hafter := (skip_suffix (scan (c :: r)).2).trans hsuffix
    have hwithin := (List.suffix_cons c r).trans (h ▸ skip_suffix s)
    refine hQ _ _ hcode ?_ (hafter.trans hwithin) ?_ ?_
    · rw [tokens_skip, ← h, hrest, h]
    · have hle := hafter.length_le
      have hlt := (h ▸ skip_suffix s).length_le
      simp only [List.length_cons] at hlt
      omega
    · intro w hw
      obtain ⟨hspan, hword⟩ := htaken.word w hw
      exact ⟨hspan.mono (h ▸ skip_suffix s), hword⟩

end Sh

end Xv6
