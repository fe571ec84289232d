import Xv6.Sh.Lex

/-!
# The parse functions return trees of the grammar

With enough fuel a parse function returns or panics; what it returns derives from the tokens that
it has taken.
-/

namespace Xv6

open Run (wp_bind wp_mono wp_pure wp_throw)

namespace Sh

namespace Cmd

variable {W V : Type}

def spans : Cmd W → List W
  | exec argv => argv
  | redir c file _ _ => c.spans ++ [file]
  | pipe l r | list l r => l.spans ++ r.spans
  | back c => c.spans

theorem map_addArg (f : W → V) (w : W) (c : Cmd W) : (c.addArg w).map f = (c.map f).addArg (f w) := by
  induction c with
  | exec argv => simp [addArg, map]
  | redir c file mode fd ih => simp [addArg, map, ih]
  | _ => rfl

theorem mem_spans_addArg {w v : W} {c : Cmd W} (h : v ∈ (c.addArg w).spans) :
    v ∈ c.spans ∨ v = w := by
  induction c with
  | exec argv => simpa [addArg, spans] using h
  | redir c file mode fd ih =>
    simp only [addArg, spans, List.mem_append, List.mem_singleton] at h ⊢
    rcases h with h | h
    · exact (ih h).imp_left .inl
    · exact .inl (.inr h)
  | _ => exact .inl h

end Cmd

theorem redirect_append (rs rs' : List Redir) (c : Cmd Word) :
    redirect (rs ++ rs') c = redirect rs' (redirect rs c) := List.foldl_append

theorem addArg_redirect (rs : List Redir) (w : Word) (c : Cmd Word) :
    (redirect rs c).addArg w = redirect rs (c.addArg w) := by
  induction rs generalizing c with
  | nil => rfl
  | cons r rs ih => exact ih _

theorem code_eq_word {t : Tok} : t.code = ch 'a' ↔ ∃ w, t = .word w := by
  cases t <;> simp [Tok.code] <;> decide

theorem code_ne_zero (t : Tok) : t.code ≠ 0 := by
  cases t <;> simp [Tok.code] <;> decide

theorem starts_redir {ts : List Tok} (h : starts [ch '<', ch '>'] ts = true) :
    ∃ op rest, ts = op :: rest ∧ ∀ (w : Span) (c : Cmd Span),
      (redircmd op.code w c).spans = c.spans ++ [w] ∧
      ∃ r, op.redir w.word = some r ∧
        (redircmd op.code w c).map Span.word = redirect [r] (c.map Span.word) := by
  cases ts with
  | nil => cases h
  | cons t ts =>
    refine ⟨t, ts, rfl, fun w c => ?_⟩
    cases t with
    | lt | gt | gtgt => exact ⟨rfl, _, rfl, rfl⟩
    | _ => cases (show false = true from h)

/-- `parseredirs` applied to `cmd`. -/
structure Redirected (s : Ptr) (cmd cmd' : Cmd Span) (s' : Ptr) : Prop where
  suffix : s' <:+ s
  spans : ∀ w ∈ cmd'.spans, w ∈ cmd.spans ∨ w.Within s
  redirs : ∃ ts rs, Redirs ts rs ∧ tokens s = ts ++ tokens s' ∧
    cmd'.map Span.word = redirect rs (cmd.map Span.word)

theorem Redirected.refl {s s' : Ptr} (hs : s' <:+ s) (htokens : tokens s' = tokens s)
    (cmd : Cmd Span) : Redirected s cmd cmd s' :=
  ⟨hs, fun _ hw => .inl hw, [], [], .nil, htokens.symm, rfl⟩

theorem wp_parseredirs {fuel : Nat} {cmd : Cmd Span} {s : Ptr} (hs : (0 : UInt8) ∉ s)
    (hfuel : s.length < fuel) :
    Run.wp (· ≠ .fuel) (parseredirs fuel cmd) (fun cmd' s' => Redirected s cmd cmd' s') s := by
  induction fuel generalizing cmd s with
  | zero => omega
  | succ fuel ih =>
    rw [parseredirs, wp_bind]
    apply wp_peek hs (by decide)
    intro s₁ htokens hsuffix
    split
    case isFalse => exact (wp_pure ..).mpr (.refl hsuffix htokens cmd)
    case isTrue hstart =>
        obtain ⟨op, ts, hop, hmake⟩ := starts_redir hstart
        have hs₁ := not_mem_of_suffix hsuffix hs
        rw [wp_bind]
        apply wp_gettoken (htokens.trans hop) hs₁
        intro tok s₂ hcode hrest hsuffix₂ hlt _
        have hs₂ := not_mem_of_suffix hsuffix₂ hs₁
        rw [wp_bind]
        rcases hts : ts with _ | ⟨t, ts'⟩
        · apply wp_gettoken_nil (hrest.trans hts) hs₂
          intro file hret
          rw [if_pos (by rw [hret]; decide)]
          exact (wp_throw ..).mpr nofun
        · apply wp_gettoken (hrest.trans hts) hs₂
          intro file s₃ hcode' hrest' hsuffix₃ hlt' hfile
          by_cases hword : file.ret = ch 'a'
          · rw [if_neg (not_not_intro hword)]
            obtain ⟨w, rfl⟩ := code_eq_word.mp (hcode'.symm.trans hword)
            obtain ⟨hwithin, rfl⟩ := hfile w rfl
            obtain ⟨hspans, r, hr, hmap⟩ := hmake file.span cmd
            have hle := hsuffix.length_le
            refine wp_mono (ih (not_mem_of_suffix hsuffix₃ hs₂) (by omega)) ?_
            rintro cmd' s' ⟨hsuffix', hspans', ts'', rs, hrs, htokens', hmap'⟩
            rw [hcode] at hspans' hmap'
            refine ⟨hsuffix'.trans (hsuffix₃.trans (hsuffix₂.trans hsuffix)), ?_,
              op :: .word file.span.word :: ts'', r :: rs, .cons hr hrs, ?_, ?_⟩
            · intro v hv
              rcases hspans' v hv with hold | hnew
              · rw [hspans, List.mem_append, List.mem_singleton] at hold
                refine hold.imp_right fun hv => ?_
                exact hv ▸ hwithin.mono (hsuffix₂.trans hsuffix)
              · exact .inr (hnew.mono (hsuffix₃.trans (hsuffix₂.trans hsuffix)))
            · rw [hop, hts, ← hrest', htokens']
              rfl
            · rw [hmap', hmap]
              rfl
          · rw [if_pos hword]
            exact (wp_throw ..).mpr nofun

/-- The loop of `parseexec`, on a command with the words `ws`. -/
theorem wp_parseargs (fuel : Nat) {ret : Cmd Span} {s : Ptr} (ws : List Word) {rs : List Redir}
    (hs : (0 : UInt8) ∉ s) (hfuel : s.length < fuel)
    (hret : ret.map Span.word = redirect rs (.exec ws)) (hmax : ws.length < MAXARGS) :
    Run.wp (· ≠ .fuel) (parseargs fuel ret ws.length) (fun ret' s' => s' <:+ s ∧
      (∀ w ∈ ret'.spans, w ∈ ret.spans ∨ w.Within s) ∧
      ∃ ts ws' rs', Args ts ws' rs' ∧ tokens s = ts ++ tokens s' ∧
        ret'.map Span.word = redirect (rs ++ rs') (.exec (ws ++ ws')) ∧
        (ws ++ ws').length < MAXARGS) s := by
  induction fuel generalizing ret s ws rs with
  | zero => omega
  | succ fuel ih =>
    have hstop {s' : Ptr} (hsuffix : s' <:+ s) (htokens : tokens s = tokens s') :
        s' <:+ s ∧ (∀ w ∈ ret.spans, w ∈ ret.spans ∨ w.Within s) ∧
        ∃ ts ws' rs', Args ts ws' rs' ∧ tokens s = ts ++ tokens s' ∧
          ret.map Span.word = redirect (rs ++ rs') (.exec (ws ++ ws')) ∧
          (ws ++ ws').length < MAXARGS := by
      refine ⟨hsuffix, fun _ hw => .inl hw, [], [], [], .nil, htokens, ?_, ?_⟩
      · simpa using hret
      · simpa using hmax
    rw [parseargs, wp_bind]
    apply wp_peek hs (by decide)
    intro s₁ htokens hsuffix
    have hs₁ := not_mem_of_suffix hsuffix hs
    split
    case isTrue => exact (wp_pure ..).mpr (hstop hsuffix htokens.symm)
    case isFalse =>
        rw [wp_bind]
        rcases hts : tokens s with _ | ⟨t, ts⟩
        · apply wp_gettoken_nil (htokens.trans hts) hs₁
          intro tok hzero
          rw [if_pos hzero]
          exact (wp_pure ..).mpr (hts ▸ hstop List.nil_suffix (hts.trans rfl))
        · apply wp_gettoken (htokens.trans hts) hs₁
          intro tok s₂ hcode hrest hsuffix₂ hlt hword
          rw [if_neg (by rw [hcode]; exact code_ne_zero t)]
          by_cases ha : tok.ret = ch 'a'
          · rw [if_neg (not_not_intro ha)]
            obtain ⟨w, rfl⟩ := code_eq_word.mp (hcode.symm.trans ha)
            obtain ⟨hwithin, rfl⟩ := hword w rfl
            split
            · exact (wp_throw ..).mpr nofun
            · rename_i hargs
              have hs₂ := not_mem_of_suffix hsuffix₂ hs₁
              have hle := hsuffix.length_le
              rw [wp_bind]
              refine wp_mono (wp_parseredirs hs₂ (by omega)) ?_
              rintro ret₁ s₃ ⟨hsuffix₃, hspans, ts₁, rs₁, hrs₁, htokens₁, hmap⟩
              rw [Cmd.map_addArg, hret, addArg_redirect, ← redirect_append] at hmap
              have hle₃ := hsuffix₃.length_le
              have hnext := ih (ws ++ [tok.span.word]) (not_mem_of_suffix hsuffix₃ hs₂)
                (by omega) hmap (by simpa using hargs)
              rw [List.length_append] at hnext
              refine wp_mono hnext ?_
              rintro ret' s' ⟨hsuffix', hspans', ts', ws', rs', hargs', htokens', hmap', hmax'⟩
              refine ⟨hsuffix'.trans (hsuffix₃.trans (hsuffix₂.trans hsuffix)), ?_,
                .word tok.span.word :: (ts₁ ++ ts'), tok.span.word :: ws', rs₁ ++ rs',
                .cons hrs₁ hargs', ?_, ?_, ?_⟩
              · intro v hv
                rcases hspans' v hv with hold | hnew
                · rcases hspans v hold with hold | hnew
                  · refine (Cmd.mem_spans_addArg hold).imp_right fun hv => ?_
                    exact hv ▸ hwithin.mono hsuffix
                  · exact .inr (hnew.mono (hsuffix₂.trans hsuffix))
                · exact .inr (hnew.mono (hsuffix₃.trans (hsuffix₂.trans hsuffix)))
              · rw [← hrest, htokens₁, htokens']
                simp
              · simpa using hmap'
              · simpa using hmax'
          · rw [if_pos ha]
            exact (wp_throw ..).mpr nofun

theorem starts_op (op : Tok) (hop : op ∈ [.bar, .amp, .semi, .lpar, .rpar]) {ts : List Tok}
    (h : starts [op.code] ts = true) : ∃ rest, ts = op :: rest := by
  cases ts with
  | nil => cases h
  | cons t ts =>
    refine ⟨ts, ?_⟩
    simp only [List.mem_cons, List.not_mem_nil, or_false] at hop
    rcases hop with rfl | rfl | rfl | rfl | rfl <;> cases t <;>
      first | rfl | cases (show false = true from h)

theorem wp_parsebacks {fuel : Nat} {cmd : Cmd Span} {s : Ptr} (hs : (0 : UInt8) ∉ s)
    (hfuel : s.length < fuel) :
    Run.wp (· ≠ .fuel) (parsebacks fuel cmd) (fun cmd' s' => s' <:+ s ∧ cmd'.spans = cmd.spans ∧
      ∃ n, tokens s = List.replicate n .amp ++ tokens s' ∧
        cmd'.map Span.word = backs n (cmd.map Span.word)) s := by
  induction fuel generalizing cmd s with
  | zero => omega
  | succ fuel ih =>
    rw [parsebacks, wp_bind]
    apply wp_peek hs (by decide)
    intro s₁ htokens hsuffix
    split
    case isFalse =>
        exact (wp_pure ..).mpr ⟨hsuffix, rfl, 0, htokens.symm, rfl⟩
    case isTrue hstart =>
        obtain ⟨ts, hts⟩ := starts_op .amp (by decide) hstart
        have hs₁ := not_mem_of_suffix hsuffix hs
        rw [wp_bind]
        apply wp_gettoken (htokens.trans hts) hs₁
        intro tok s₂ _ hrest hsuffix₂ hlt _
        have hle := hsuffix.length_le
        refine wp_mono (ih (not_mem_of_suffix hsuffix₂ hs₁) (by omega)) ?_
        rintro cmd' s' ⟨hsuffix', hspans, n, htokens', hmap⟩
        refine ⟨hsuffix'.trans (hsuffix₂.trans hsuffix), hspans, n + 1, ?_, hmap⟩
        rw [hts, ← hrest, htokens']
        rfl

/-- What a parse function for `nt` returns. -/
structure Parsed (nt : Nonterminal) (s : Ptr) (cmd : Cmd Span) (s' : Ptr) : Prop where
  suffix : s' <:+ s
  spans : ∀ w ∈ cmd.spans, w.Within s
  derives : ∃ ts, tokens s = ts ++ tokens s' ∧ Derives nt ts (cmd.map Span.word)

/-- All four functions together, by induction on the fuel: between two calls of the same function
a token is taken. -/
theorem wp_parse (fuel : Nat) :
    (∀ s, (0 : UInt8) ∉ s → 4 * s.length + 4 ≤ fuel →
      Run.wp (· ≠ .fuel) (parseline fuel) (Parsed .line s) s) ∧
    (∀ s, (0 : UInt8) ∉ s → 4 * s.length + 3 ≤ fuel →
      Run.wp (· ≠ .fuel) (parsepipe fuel) (Parsed .pipe s) s) ∧
    (∀ s, (0 : UInt8) ∉ s → 4 * s.length + 1 ≤ fuel →
      Run.wp (· ≠ .fuel) (parseblock fuel) (Parsed .exec s) s) ∧
    ∀ s, (0 : UInt8) ∉ s → 4 * s.length + 2 ≤ fuel →
      Run.wp (· ≠ .fuel) (parseexec fuel) (Parsed .exec s) s := by
  induction fuel with
  | zero => refine ⟨?_, ?_, ?_, ?_⟩ <;> intro s _ hfuel <;> omega
  | succ fuel ih =>
    obtain ⟨ihline, ihpipe, ihblock, ihexec⟩ := ih
    refine ⟨?line, ?pipe, ?block, ?exec⟩
    case line =>
      intro s hs hfuel
      rw [parseline, wp_bind]
      refine wp_mono (ihpipe s hs (by omega)) ?_
      rintro cmd s₁ ⟨hsuffix, hspans, ts, htokens, hderives⟩
      have hs₁ := not_mem_of_suffix hsuffix hs
      have hle := hsuffix.length_le
      rw [wp_bind]
      refine wp_mono (wp_parsebacks hs₁ (by omega)) ?_
      rintro cmd' s₂ ⟨hsuffix₂, hspans₂, n, htokens₂, hmap⟩
      have hs₂ := not_mem_of_suffix hsuffix₂ hs₁
      have hle₂ := hsuffix₂.length_le
      rw [wp_bind]
      apply wp_peek hs₂ (by decide)
      intro s₃ htokens₃ hsuffix₃
      split
      case isFalse =>
        have hline := Derives.line n hderives
        rw [← hmap] at hline
        refine (wp_pure ..).mpr ⟨hsuffix₃.trans (hsuffix₂.trans hsuffix), ?_, _, ?_, hline⟩
        · rwa [hspans₂]
        · rw [htokens, htokens₂, htokens₃, List.append_assoc]
      case isTrue hstart =>
        obtain ⟨ts', hts'⟩ := starts_op .semi (by decide) hstart
        have hs₃ := not_mem_of_suffix hsuffix₃ hs₂
        have hle₃ := hsuffix₃.length_le
        rw [wp_bind]
        apply wp_gettoken (htokens₃.trans hts') hs₃
        intro tok s₄ _ hrest hsuffix₄ hlt _
        rw [wp_bind]
        refine wp_mono (ihline s₄ (not_mem_of_suffix hsuffix₄ hs₃) (by omega)) ?_
        rintro rest s' ⟨hsuffix', hspans', ts'', htokens', hderives'⟩
        have hback := hsuffix₄.trans (hsuffix₃.trans (hsuffix₂.trans hsuffix))
        have hlines := Derives.lines n hderives hderives'
        rw [← hmap] at hlines
        refine (wp_pure ..).mpr ⟨hsuffix'.trans hback, ?_, _, ?_, hlines⟩
        · intro w hw
          rcases List.mem_append.mp hw with hw | hw
          · exact hspans w (hspans₂ ▸ hw)
          · exact (hspans' w hw).mono hback
        · rw [htokens, htokens₂, hts', ← hrest, htokens']
          simp
    case pipe =>
      intro s hs hfuel
      rw [parsepipe, wp_bind]
      refine wp_mono (ihexec s hs (by omega)) ?_
      rintro cmd s₁ ⟨hsuffix, hspans, ts, htokens, hderives⟩
      have hs₁ := not_mem_of_suffix hsuffix hs
      have hle := hsuffix.length_le
      rw [wp_bind]
      apply wp_peek hs₁ (by decide)
      intro s₂ htokens₂ hsuffix₂
      split
      case isFalse =>
        exact (wp_pure ..).mpr ⟨hsuffix₂.trans hsuffix, hspans, ts, by rw [htokens, htokens₂],
          .single hderives⟩
      case isTrue hstart =>
        obtain ⟨ts', hts'⟩ := starts_op .bar (by decide) hstart
        have hs₂ := not_mem_of_suffix hsuffix₂ hs₁
        have hle₂ := hsuffix₂.length_le
        rw [wp_bind]
        apply wp_gettoken (htokens₂.trans hts') hs₂
        intro tok s₃ _ hrest hsuffix₃ hlt _
        rw [wp_bind]
        refine wp_mono (ihpipe s₃ (not_mem_of_suffix hsuffix₃ hs₂) (by omega)) ?_
        rintro rest s' ⟨hsuffix', hspans', ts'', htokens', hderives'⟩
        have hback := hsuffix₃.trans (hsuffix₂.trans hsuffix)
        refine (wp_pure ..).mpr ⟨hsuffix'.trans hback, ?_, _, ?_, .pipe hderives hderives'⟩
        · intro w hw
          rcases List.mem_append.mp hw with hw | hw
          · exact hspans w hw
          · exact (hspans' w hw).mono hback
        · rw [htokens, hts', ← hrest, htokens']
          simp
    case block =>
      intro s hs hfuel
      rw [parseblock, wp_bind]
      apply wp_peek hs (by decide)
      intro s₁ htokens hsuffix
      have hs₁ := not_mem_of_suffix hsuffix hs
      have hle := hsuffix.length_le
      split
      case isFalse => exact (wp_throw ..).mpr nofun
      case isTrue hstart =>
        obtain ⟨ts, hts⟩ := starts_op .lpar (by decide) hstart
        rw [wp_bind]
        apply wp_gettoken (htokens.trans hts) hs₁
        intro tok s₂ _ hrest hsuffix₂ hlt _
        have hs₂ := not_mem_of_suffix hsuffix₂ hs₁
        rw [wp_bind]
        refine wp_mono (ihline s₂ hs₂ (by omega)) ?_
        rintro cmd s₃ ⟨hsuffix₃, hspans, ts₁, htokens₃, hderives⟩
        have hs₃ := not_mem_of_suffix hsuffix₃ hs₂
        have hle₃ := hsuffix₃.length_le
        rw [wp_bind]
        apply wp_peek hs₃ (by decide)
        intro s₄ htokens₄ hsuffix₄
        have hle₄ := hsuffix₄.length_le
        split
        case isFalse => exact (wp_throw ..).mpr nofun
        case isTrue hstart' =>
          obtain ⟨ts₂, hts₂⟩ := starts_op .rpar (by decide) hstart'
          have hs₄ := not_mem_of_suffix hsuffix₄ hs₃
          rw [wp_bind]
          apply wp_gettoken (htokens₄.trans hts₂) hs₄
          intro tok' s₅ _ hrest' hsuffix₅ hlt' _
          refine wp_mono (wp_parseredirs (not_mem_of_suffix hsuffix₅ hs₄) (by omega)) ?_
          rintro cmd' s' ⟨hsuffix', hspans', ts₃, rs, hrs, htokens', hmap⟩
          have hback := hsuffix₂.trans hsuffix
          have hback' := hsuffix₅.trans (hsuffix₄.trans (hsuffix₃.trans hback))
          have hblock := Derives.block hderives hrs
          rw [← hmap] at hblock
          refine ⟨hsuffix'.trans hback', ?_, _, ?_, hblock⟩
          · intro w hw
            rcases hspans' w hw with hw | hw
            · exact (hspans w hw).mono hback
            · exact hw.mono hback'
          · rw [hts, ← hrest, htokens₃, hts₂, ← hrest', htokens']
            simp
    case exec =>
      intro s hs hfuel
      rw [parseexec, wp_bind]
      apply wp_peek hs (by decide)
      intro s₁ htokens hsuffix
      have hs₁ := not_mem_of_suffix hsuffix hs
      have hle := hsuffix.length_le
      split
      case isTrue =>
        refine wp_mono (ihblock s₁ hs₁ (by omega)) ?_
        rintro cmd s' ⟨hsuffix', hspans, ts, htokens', hderives⟩
        exact ⟨hsuffix'.trans hsuffix, fun w hw => (hspans w hw).mono hsuffix, ts,
          htokens ▸ htokens', hderives⟩
      case isFalse =>
        rw [wp_bind]
        refine wp_mono (wp_parseredirs hs₁ (by omega)) ?_
        rintro ret s₂ ⟨hsuffix₂, hspans, ts, rs, hrs, htokens₂, hmap⟩
        have hle₂ := hsuffix₂.length_le
        have hargs := wp_parseargs fuel [] (not_mem_of_suffix hsuffix₂ hs₁)
          (by omega) hmap (by decide)
        refine wp_mono hargs ?_
        rintro ret' s' ⟨hsuffix', hspans', ts', ws, rs', hargs, htokens', hmap', hmax⟩
        have hback := hsuffix₂.trans hsuffix
        refine ⟨hsuffix'.trans hback, ?_, ts ++ ts', ?_, hmap' ▸ .simple hrs hargs hmax⟩
        · intro w hw
          rcases hspans' w hw with hw | hw
          · rcases hspans w hw with hw | hw
            · cases hw
            · exact hw.mono hsuffix
          · exact hw.mono hback
        · rw [← htokens, htokens₂, htokens', List.append_assoc]

end Sh

end Xv6
