import Xv6.Sh.Sound

/-!
# The parse functions find every tree of the grammar

Whatever a nonterminal derives is parsed with that tree, in front of any tokens that may follow
the nonterminal.
-/

namespace Xv6

open Run (wp_bind wp_mono wp_pure)

namespace Sh

/-- The tokens that may follow a nonterminal. -/
def Nonterminal.follow : Nonterminal → List Tok
  | .line => [.rpar]
  | .pipe => [.rpar, .amp, .semi]
  | .exec => [.rpar, .amp, .semi, .bar]

/-- The rest of the string may follow `nt`. -/
def Nonterminal.Ends (nt : Nonterminal) (more : List Tok) : Prop :=
  ∀ t ∈ more.head?, t ∈ nt.follow

variable {more : List Tok}

theorem ends_pipe (h : Nonterminal.line.Ends more) : Nonterminal.pipe.Ends more :=
  fun t ht => List.subset_append_left [Tok.rpar] [Tok.amp, Tok.semi] (h t ht)

theorem ends_exec (h : Nonterminal.pipe.Ends more) : Nonterminal.exec.Ends more :=
  fun t ht => List.subset_append_left [Tok.rpar, Tok.amp, Tok.semi] [Tok.bar] (h t ht)

theorem Nonterminal.Ends.starts {nt : Nonterminal} (h : nt.Ends more) {toks : List UInt8}
    (htoks : ∀ t ∈ nt.follow, toks.contains t.symbol = false) :
    starts toks more = false := by
  cases more with
  | nil => rfl
  | cons t more => exact htoks t (h t rfl)

theorem wp_of_succ {α : Type} {m : Nat → Parser α} {Q : α → Ptr → Prop} {s : Ptr} (fuel : Nat)
    (hzero : m 0 = throw .fuel) (hsucc : ∀ fuel, Run.wp (· = .fuel) (m (fuel + 1)) Q s) :
    Run.wp (· = .fuel) (m fuel) Q s := by
  cases fuel with
  | zero =>
    rw [hzero]
    exact (Run.wp_throw ..).mpr rfl
  | succ fuel => exact hsucc fuel

/-- `peek` in front of known tokens -/
theorem wp_peek_of {ts : List Tok} {s : Ptr} (htokens : tokens s = ts) (hs : (0 : UInt8) ∉ s)
    {toks : List UInt8} (hsymbols : toks ⊆ symbols) {Q : Bool → Ptr → Prop}
    (hQ : ∀ s', (0 : UInt8) ∉ s' → tokens s' = ts → Q (starts toks ts) s') :
    Run.wp (· = .fuel) (peek toks) Q s := by
  subst htokens
  exact wp_peek hs hsymbols fun s' htokens hsuffix => hQ s' (not_mem_of_suffix hsuffix hs) htokens

variable {rs : List Redir}

theorem wp_parseredirs_of_redirs {ts more : List Tok} (hrs : Redirs ts rs)
    (hmore : starts [ch '<', ch '>'] more = false) {fuel : Nat} {cmd : Cmd Span} {s : Ptr}
    (hs : (0 : UInt8) ∉ s) (htokens : tokens s = ts ++ more) :
    Run.wp (· = .fuel) (parseredirs fuel cmd) (fun cmd' s' => (0 : UInt8) ∉ s' ∧ tokens s' = more ∧
      cmd'.map Span.word = redirect rs (cmd.map Span.word)) s := by
  induction hrs generalizing fuel cmd s with
  | nil =>
    apply wp_of_succ fuel (by rfl)
    intro fuel
    rw [parseredirs, wp_bind]
    apply wp_peek_of htokens hs (by decide)
    intro s₁ hs₁ htokens₁
    rw [List.nil_append, hmore]
    exact (wp_pure ..).mpr ⟨hs₁, htokens₁, rfl⟩
  | @cons op w r ts rs hr _ ih =>
    apply wp_of_succ fuel (by rfl)
    intro fuel
    have hstart : starts [ch '<', ch '>'] (op :: .word w :: ts ++ more) = true := by
      cases op <;> first | rfl | cases hr
    rw [parseredirs, wp_bind]
    apply wp_peek_of htokens hs (by decide)
    intro s₁ hs₁ htokens₁
    rw [hstart, if_pos rfl, wp_bind]
    apply wp_gettoken htokens₁ hs₁
    intro tok s₂ hcode hrest hsuffix₂ _ _
    have hs₂ := not_mem_of_suffix hsuffix₂ hs₁
    rw [wp_bind]
    apply wp_gettoken hrest hs₂
    intro file s₃ hfile hrest' hsuffix₃ _ hword
    obtain ⟨-, rfl⟩ := hword w rfl
    have hret : file.ret = ch 'a' := hfile
    rw [if_neg (not_not_intro hret)]
    obtain ⟨op', rest, heq, hmake⟩ := starts_redir hstart
    obtain ⟨rfl, -⟩ := List.cons.inj heq
    obtain ⟨-, r', hr', hmap⟩ := hmake file.span cmd
    obtain rfl := Option.some.inj (hr.symm.trans hr')
    refine wp_mono (ih (not_mem_of_suffix hsuffix₃ hs₂) hrest') ?_
    rintro cmd' s' ⟨hs', htokens', hmap'⟩
    refine ⟨hs', htokens', ?_⟩
    rw [hmap', hcode, hmap]
    rfl

theorem starts_args {ts more : List Tok} {ws : List Word} (hargs : Args ts ws rs)
    (hmore : Nonterminal.exec.Ends more) {toks : List UInt8} (hsub : toks ⊆ [ch '<', ch '>', ch '(']) :
    starts toks (ts ++ more) = false := by
  have hnot (c : UInt8) (hc : c ∉ [ch '<', ch '>', ch '(']) : toks.contains c = false := by
    simpa using fun hmem => hc (hsub hmem)
  cases hargs with
  | nil =>
    refine hmore.starts fun t ht => hnot _ ?_
    revert t
    decide
  | cons _ _ => exact hnot 0 (by decide)

theorem wp_parseargs_of_args {ts more : List Tok} {ws : List Word} (hargs : Args ts ws rs)
    (hmore : Nonterminal.exec.Ends more) {fuel argc : Nat} {ret : Cmd Span} {s : Ptr}
    {ws₀ : List Word} {rs₀ : List Redir} (hs : (0 : UInt8) ∉ s) (htokens : tokens s = ts ++ more)
    (hret : ret.map Span.word = redirect rs₀ (.exec ws₀)) (hmax : argc + ws.length < MAXARGS) :
    Run.wp (· = .fuel) (parseargs fuel ret argc) (fun ret' s' => (0 : UInt8) ∉ s' ∧
      tokens s' = more ∧ ret'.map Span.word = redirect (rs₀ ++ rs) (.exec (ws₀ ++ ws))) s := by
  induction hargs generalizing fuel argc ret s ws₀ rs₀ with
  | nil =>
    apply wp_of_succ fuel (by rfl)
    intro fuel
    rw [parseargs, wp_bind]
    apply wp_peek_of htokens hs (by decide)
    intro s₁ hs₁ htokens₁
    cases more with
    | nil =>
      rw [if_neg (by simp [starts]), wp_bind]
      apply wp_gettoken_nil htokens₁ hs₁
      intro tok hzero
      rw [if_pos hzero]
      exact (wp_pure ..).mpr ⟨List.not_mem_nil, rfl, by simpa using hret⟩
    | cons t more =>
      have hfollow : ∀ t ∈ Nonterminal.exec.follow,
          [ch '|', ch ')', ch '&', ch ';'].contains t.symbol = true := by decide
      rw [List.nil_append, starts, if_pos (hfollow t (hmore t rfl))]
      exact (wp_pure ..).mpr ⟨hs₁, htokens₁, by simpa using hret⟩
  | @cons w ts ts' rs rs' ws hrs hargs ih =>
    apply wp_of_succ fuel (by rfl)
    intro fuel
    rw [parseargs, wp_bind]
    apply wp_peek_of htokens hs (by decide)
    intro s₁ hs₁ htokens₁
    rw [if_neg (by exact Bool.false_ne_true), wp_bind]
    apply wp_gettoken htokens₁ hs₁
    intro tok s₂ hcode hrest hsuffix₂ _ hword
    have hs₂ := not_mem_of_suffix hsuffix₂ hs₁
    obtain ⟨-, rfl⟩ := hword w rfl
    simp only [List.length_cons] at hmax
    have hret' : tok.ret = ch 'a' := hcode
    rw [if_neg (by rw [hcode]; exact code_ne_zero _), if_neg (not_not_intro hret'),
      if_neg (by omega), wp_bind]
    have hrest' : tokens s₂ = ts ++ (ts' ++ more) := hrest.trans (List.append_assoc ..)
    refine wp_mono
      (wp_parseredirs_of_redirs hrs (starts_args hargs hmore (by decide)) hs₂ hrest') ?_
    rintro ret₁ s₃ ⟨hs₃, htokens₃, hmap⟩
    rw [Cmd.map_addArg, hret, addArg_redirect, ← redirect_append] at hmap
    refine wp_mono (ih hs₃ htokens₃ hmap (by omega)) ?_
    rintro ret' s' ⟨hs', htokens', hmap'⟩
    exact ⟨hs', htokens', by simpa using hmap'⟩

theorem wp_parsebacks_replicate (n : Nat) (hmore : starts [ch '&'] more = false) {fuel : Nat}
    {cmd : Cmd Span} {s : Ptr} (hs : (0 : UInt8) ∉ s)
    (htokens : tokens s = List.replicate n .amp ++ more) :
    Run.wp (· = .fuel) (parsebacks fuel cmd) (fun cmd' s' => (0 : UInt8) ∉ s' ∧ tokens s' = more ∧
      cmd'.map Span.word = backs n (cmd.map Span.word)) s := by
  induction n generalizing fuel cmd s with
  | zero =>
    apply wp_of_succ fuel (by rfl)
    intro fuel
    rw [parsebacks, wp_bind]
    rw [List.replicate_zero, List.nil_append] at htokens
    apply wp_peek_of htokens hs (by decide)
    intro s₁ hs₁ htokens₁
    rw [hmore]
    exact (wp_pure ..).mpr ⟨hs₁, htokens₁, rfl⟩
  | succ n ih =>
    apply wp_of_succ fuel (by rfl)
    intro fuel
    rw [parsebacks, wp_bind]
    rw [List.replicate_succ, List.cons_append] at htokens
    apply wp_peek_of htokens hs (by decide)
    intro s₁ hs₁ htokens₁
    rw [if_pos (by rfl), wp_bind]
    apply wp_gettoken htokens₁ hs₁
    intro tok s₂ _ hrest hsuffix₂ _ _
    exact ih (not_mem_of_suffix hsuffix₂ hs₁) hrest

def Nonterminal.parser : Nonterminal → Nat → Parser (Cmd Span)
  | .line => parseline
  | .pipe => parsepipe
  | .exec => parseexec

/-- The tree `c` was read, and the tokens `more` are left. -/
def Read (c : Cmd Word) (more : List Tok) (cmd : Cmd Span) (s : Ptr) : Prop :=
  (0 : UInt8) ∉ s ∧ tokens s = more ∧ cmd.map Span.word = c

theorem ends_amps {n : Nat} (hmore : ∀ t ∈ more.head?, t ∈ Nonterminal.pipe.follow) :
    Nonterminal.pipe.Ends (List.replicate n .amp ++ more) := by
  cases n with
  | zero => exact hmore
  | succ n =>
    rintro t ⟨⟩
    decide

theorem wp_of_derives {nt : Nonterminal} {ts : List Tok} {c : Cmd Word} (h : Derives nt ts c) :
    ∀ {fuel : Nat} {s : Ptr} {more : List Tok}, (0 : UInt8) ∉ s → tokens s = ts ++ more →
      nt.Ends more → Run.wp (· = .fuel) (nt.parser fuel) (Read c more) s := by
  induction h with
  | @line ts c n _ ih =>
    intro fuel s more hs htokens hmore
    apply wp_of_succ fuel (by rfl)
    intro fuel
    rw [Nonterminal.parser, parseline, wp_bind]
    rw [List.append_assoc] at htokens
    refine wp_mono (ih hs htokens (ends_amps (ends_pipe hmore))) ?_
    rintro cmd s₁ ⟨hs₁, htokens₁, rfl⟩
    rw [wp_bind]
    refine wp_mono
      (wp_parsebacks_replicate n (hmore.starts (by decide)) hs₁ htokens₁) ?_
    rintro cmd' s₂ ⟨hs₂, htokens₂, hmap⟩
    rw [wp_bind]
    apply wp_peek_of htokens₂ hs₂ (by decide)
    intro s₃ hs₃ htokens₃
    rw [hmore.starts (by decide), if_neg Bool.false_ne_true]
    exact (wp_pure ..).mpr ⟨hs₃, htokens₃, hmap⟩
  | @lines ts ts' c c' n _ _ ih ih' =>
    intro fuel s more hs htokens hmore
    apply wp_of_succ fuel (by rfl)
    intro fuel
    rw [Nonterminal.parser, parseline, wp_bind]
    have htokens : tokens s = ts ++ (List.replicate n .amp ++ .semi :: (ts' ++ more)) := by
      simpa using htokens
    have hsemi : ∀ t ∈ (Tok.semi :: (ts' ++ more)).head?, t ∈ Nonterminal.pipe.follow := by
      rintro t ⟨⟩
      decide
    refine wp_mono (ih hs htokens (ends_amps hsemi)) ?_
    rintro cmd s₁ ⟨hs₁, htokens₁, rfl⟩
    rw [wp_bind]
    refine wp_mono (wp_parsebacks_replicate n rfl hs₁ htokens₁) ?_
    rintro cmd' s₂ ⟨hs₂, htokens₂, hmap⟩
    rw [wp_bind]
    apply wp_peek_of htokens₂ hs₂ (by decide)
    intro s₃ hs₃ htokens₃
    rw [if_pos (by rfl), wp_bind]
    apply wp_gettoken htokens₃ hs₃
    intro tok s₄ _ hrest hsuffix₄ _ _
    rw [wp_bind]
    refine wp_mono (ih' (not_mem_of_suffix hsuffix₄ hs₃) hrest hmore) ?_
    rintro rest s' ⟨hs', htokens', rfl⟩
    exact (wp_pure ..).mpr ⟨hs', htokens', by rw [Cmd.map, hmap]⟩
  | @single ts c _ ih =>
    intro fuel s more hs htokens hmore
    apply wp_of_succ fuel (by rfl)
    intro fuel
    rw [Nonterminal.parser, parsepipe, wp_bind]
    refine wp_mono (ih hs htokens (ends_exec hmore)) ?_
    rintro cmd s₁ ⟨hs₁, htokens₁, hmap⟩
    rw [wp_bind]
    apply wp_peek_of htokens₁ hs₁ (by decide)
    intro s₂ hs₂ htokens₂
    rw [hmore.starts (by decide), if_neg Bool.false_ne_true]
    exact (wp_pure ..).mpr ⟨hs₂, htokens₂, hmap⟩
  | @pipe ts ts' c c' _ _ ih ih' =>
    intro fuel s more hs htokens hmore
    apply wp_of_succ fuel (by rfl)
    intro fuel
    rw [Nonterminal.parser, parsepipe, wp_bind]
    rw [List.append_assoc] at htokens
    have hbar : Nonterminal.exec.Ends (.bar :: ts' ++ more) := by
      rintro t ⟨⟩
      decide
    refine wp_mono (ih hs htokens hbar) ?_
    rintro cmd s₁ ⟨hs₁, htokens₁, rfl⟩
    rw [wp_bind]
    apply wp_peek_of htokens₁ hs₁ (by decide)
    intro s₂ hs₂ htokens₂
    rw [if_pos (by rfl), wp_bind]
    apply wp_gettoken htokens₂ hs₂
    intro tok s₃ _ hrest hsuffix₃ _ _
    rw [wp_bind]
    refine wp_mono (ih' (not_mem_of_suffix hsuffix₃ hs₂) hrest hmore) ?_
    rintro rest s' ⟨hs', htokens', rfl⟩
    exact (wp_pure ..).mpr ⟨hs', htokens', rfl⟩
  | @block ts ts' c rs _ hrs ih =>
    intro fuel s more hs htokens hmore
    apply wp_of_succ fuel (by rfl)
    intro fuel
    have htokens : tokens s = .lpar :: (ts ++ .rpar :: (ts' ++ more)) := by
      simpa using htokens
    rw [Nonterminal.parser, parseexec, wp_bind]
    apply wp_peek_of htokens hs (by decide)
    intro s₁ hs₁ htokens₁
    rw [if_pos (by rfl)]
    apply wp_of_succ fuel (by rfl)
    intro fuel
    rw [parseblock, wp_bind]
    apply wp_peek_of htokens₁ hs₁ (by decide)
    intro s₂ hs₂ htokens₂
    rw [if_pos (by rfl), wp_bind]
    apply wp_gettoken htokens₂ hs₂
    intro tok s₃ _ hrest hsuffix₃ _ _
    have hrpar : Nonterminal.line.Ends (.rpar :: (ts' ++ more)) := by
      rintro t ⟨⟩
      decide
    rw [wp_bind]
    refine wp_mono (ih (not_mem_of_suffix hsuffix₃ hs₂) hrest hrpar) ?_
    rintro cmd s₄ ⟨hs₄, htokens₄, rfl⟩
    rw [wp_bind]
    apply wp_peek_of htokens₄ hs₄ (by decide)
    intro s₅ hs₅ htokens₅
    rw [if_pos (by rfl), wp_bind]
    apply wp_gettoken htokens₅ hs₅
    intro tok' s₆ _ hrest' hsuffix₆ _ _
    exact wp_parseredirs_of_redirs hrs (hmore.starts (by decide))
      (not_mem_of_suffix hsuffix₆ hs₅) hrest'
  | @simple ts ts' rs rs' ws hrs hargs hmax =>
    intro fuel s more hs htokens hmore
    apply wp_of_succ fuel (by rfl)
    intro fuel
    rw [List.append_assoc] at htokens
    have hopen : starts [ch '('] (ts ++ (ts' ++ more)) = false := by
      cases hrs with
      | nil => exact starts_args hargs hmore (by decide)
      | @cons op w r ts rs hr _ => cases op <;> first | rfl | cases hr
    rw [Nonterminal.parser, parseexec, wp_bind]
    apply wp_peek_of htokens hs (by decide)
    intro s₁ hs₁ htokens₁
    rw [hopen, if_neg Bool.false_ne_true, wp_bind]
    refine wp_mono
      (wp_parseredirs_of_redirs hrs (starts_args hargs hmore (by decide)) hs₁ htokens₁) ?_
    rintro ret s₂ ⟨hs₂, htokens₂, hmap⟩
    exact wp_parseargs_of_args hargs hmore hs₂ htokens₂ hmap (by omega)

end Sh

end Xv6
