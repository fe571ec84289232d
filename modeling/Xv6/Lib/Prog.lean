import Mathlib.Logic.Function.Basic
import Mathlib.Tactic.SplitIfs
import Xv6.Lib.Run

/-!
# Programs of atomic actions run by many threads

A program is a tree of atomic actions, each continued by what it returned.  Every thread of a pool
runs one program at a time and the pool interleaves their actions.  Programs are verified one by
one against a ledger of what their thread owns: an action needs `pre` of the ledger and leaves one
that meets `post`.  If every action keeps an invariant that ties the shared state to the ledgers of
all threads, the invariant holds in every interleaving.
-/

namespace Xv6

inductive Prog (A : Type) (R : A → Type) (α : Type) where
  | ret (x : α)
  | act (a : A) (k : R a → Prog A R α)

namespace Prog

variable {A : Type} {R : A → Type} {α β : Type}

def bind : Prog A R α → (α → Prog A R β) → Prog A R β
  | ret x, f => f x
  | act a k, f => act a fun r => bind (k r) f

instance : Monad (Prog A R) where
  pure := ret
  bind := bind

/-- The program of a single action. -/
def perform (a : A) : Prog A R (R a) := act a ret

/-- A program over part of the actions of a larger machine. -/
def embed {B : Type} {R' : B → Type} (f : A → B) (back : ∀ a, R' (f a) → R a) :
    Prog A R α → Prog B R' α
  | ret x => ret x
  | act a k => act (f a) fun r => embed f back (k (back a r))

/-- The program on a state that nothing else changes. -/
def run {σ ε : Type} (exec : (a : A) → σ → Outcome ε (R a × σ)) :
    Prog A R α → σ → Outcome ε (α × σ)
  | ret x, s => .next (x, s)
  | act a k, s =>
    match exec a s with
    | .blocked => .blocked
    | .panic e => .panic e
    | .next (r, s') => run exec (k r) s'

end Prog

/-- What an action needs of a thread's ledger, and which ledgers it may leave. -/
structure Rules (A : Type) (R : A → Type) (L : Type) where
  pre : A → L → Prop
  post : (a : A) → L → R a → L → Prop

namespace Rules

variable {A : Type} {R : A → Type} {L α β : Type} (S : Rules A R L)

/-- Every action of the program finds what it needs, and every result meets `Q`. -/
def wp : Prog A R α → (α → L → Prop) → L → Prop
  | .ret x, Q, l => Q x l
  | .act a k, Q, l => S.pre a l ∧ ∀ r l', S.post a l r l' → wp (k r) Q l'

@[simp]
theorem wp_pure (x : α) (Q : α → L → Prop) (l : L) : S.wp (pure x) Q l ↔ Q x l := Iff.rfl

@[simp]
theorem wp_bind (t : Prog A R α) (f : α → Prog A R β) (Q : β → L → Prop) :
    S.wp (t >>= f) Q = S.wp t fun x => S.wp (f x) Q := by
  induction t with
  | ret x => rfl
  | act a k ih =>
    funext l
    simp only [wp, ← ih]
    rfl

@[simp]
theorem wp_perform (a : A) (Q : R a → L → Prop) (l : L) :
    S.wp (Prog.perform a) Q l ↔ S.pre a l ∧ ∀ r l', S.post a l r l' → Q r l' := Iff.rfl

theorem wp_mono {t : Prog A R α} {Q Q' : α → L → Prop} {l : L} (h : S.wp t Q l)
    (hQ : ∀ x l', Q x l' → Q' x l') : S.wp t Q' l := by
  induction t generalizing l with
  | ret x => exact hQ x l h
  | act a k ih => exact ⟨h.1, fun r l' hpost => ih r (h.2 r l' hpost)⟩

theorem wp_embed {B : Type} {R' : B → Type} {f : A → B} {back : ∀ a, R' (f a) → R a}
    {T : Rules B R' L} (hpre : ∀ a l, S.pre a l → T.pre (f a) l)
    (hpost : ∀ a l r l', T.post (f a) l r l' → S.post a l (back a r) l') {t : Prog A R α}
    {Q : α → L → Prop} {l : L} (h : S.wp t Q l) : T.wp (t.embed f back) Q l := by
  induction t generalizing l with
  | ret x => exact h
  | act a k ih => exact ⟨hpre a l h.1, fun r l' hr => ih (back a r) (h.2 _ l' (hpost a l r l' hr))⟩

/-- Two rule sets at once, each with a ledger of its own. -/
def prod {M : Type} (T : Rules A R M) : Rules A R (L × M) where
  pre a l := S.pre a l.1 ∧ T.pre a l.2
  post a l r l' := S.post a l.1 r l'.1 ∧ T.post a l.2 r l'.2

theorem wp_prod {M : Type} {T : Rules A R M} {t : Prog A R α} {Q : α → L → Prop} {Q' : α → M → Prop}
    {l : L} {m : M} (h : S.wp t Q l) (h' : T.wp t Q' m) :
    (S.prod T).wp t (fun x lm => Q x lm.1 ∧ Q' x lm.2) (l, m) := by
  induction t generalizing l m with
  | ret x => exact ⟨h, h'⟩
  | act a k ih =>
    exact ⟨⟨h.1, h'.1⟩, fun r lm hpost => ih r (h.2 r lm.1 hpost.1) (h'.2 r lm.2 hpost.2)⟩

/-- The rules of a machine of its own: the ledger is the state. -/
def alone {σ ε : Type} (exec : (a : A) → σ → Outcome ε (R a × σ)) : Rules A R σ where
  pre _ _ := True
  post a s r s' := exec a s = .next (r, s')

theorem wp_alone {σ ε : Type} {exec : (a : A) → σ → Outcome ε (R a × σ)} {t : Prog A R α}
    {Q : α → σ → Prop} {s s' : σ} {x : α} (h : (alone exec).wp t Q s)
    (hrun : t.run exec s = .next (x, s')) : Q x s' := by
  induction t generalizing s with
  | ret y =>
    cases hrun
    exact h
  | act a k ih =>
    rw [Prog.run] at hrun
    split at hrun
    · cases hrun
    · cases hrun
    · rename_i r s1 hexec
      exact ih r (h.2 r s1 hexec) hrun

/-- As `alone`, but every action goes on, or stops with a panic of `ok`. -/
def sure {σ ε : Type} (exec : (a : A) → σ → Outcome ε (R a × σ)) (ok : ε → Prop) : Rules A R σ where
  pre a s := (exec a s).within ok fun _ => True
  post a s r s' := exec a s = .next (r, s')

theorem within_of_wp {σ ε : Type} {exec : (a : A) → σ → Outcome ε (R a × σ)} {ok : ε → Prop}
    {t : Prog A R α} {Q : α → σ → Prop} {s : σ} (h : (sure exec ok).wp t Q s) :
    (t.run exec s).within ok fun r => Q r.1 r.2 := by
  induction t generalizing s with
  | ret x => exact h
  | act a k ih =>
    obtain ⟨hpre, hpost⟩ := h
    rw [Prog.run]
    cases hexec : exec a s with
    | blocked | panic e =>
      simp only [sure, hexec] at hpre
      exact hpre
    | next r => exact ih r.1 (hpost r.1 r.2 hexec)

end Rules

/-- A shared state with the programs that threads of `P` are running. -/
structure Pool (P σ A : Type) (R : A → Type) (α : Type) where
  state : σ
  thread : P → Option (Prog A R α)

inductive PoolEvent (P C : Type) where
  /-- An idle thread begins a call. -/
  | start (p : P) (c : C)
  /-- A thread takes its next action, or returns. -/
  | run (p : P)

/-- What actions do, which program a call runs, and which threads may call. -/
structure Kernel (P σ ε A : Type) (R : A → Type) (α C : Type) where
  exec : P → (a : A) → σ → Outcome ε (R a × σ)
  prog : C → Prog A R α
  ready : σ → P → Bool

/-- The action that a thread takes next. -/
def Pool.next {P σ A : Type} {R : A → Type} {α : Type} (c : Pool P σ A R α) (p : P) : Option A :=
  match c.thread p with
  | some (.act a _) => some a
  | _ => none

namespace Kernel

variable {P σ ε A : Type} {R : A → Type} {α C L : Type} [DecidableEq P]

def step (M : Kernel P σ ε A R α C) (c : Pool P σ A R α) :
    PoolEvent P C → Outcome ε (Pool P σ A R α)
  | .start p call =>
    match c.thread p with
    | none =>
      if M.ready c.state p then
        .next { c with thread := Function.update c.thread p (some (M.prog call)) }
      else .blocked
    | some _ => .blocked
  | .run p =>
    match c.thread p with
    | none => .blocked
    | some (.ret _) => .next { c with thread := Function.update c.thread p none }
    | some (.act a k) =>
      match M.exec p a c.state with
      | .blocked => .blocked
      | .panic e => .panic e
      | .next (r, s) => .next ⟨s, Function.update c.thread p (some (k r))⟩

/-- The next action of a running thread meets `ok`. -/
def allows (ok : σ → P → A → Prop) (c : Pool P σ A R α) : PoolEvent P C → Prop
  | .start _ _ => True
  | .run p => ∀ a, c.next p = some a → ok c.state p a

instance (ok : σ → P → A → Prop) [∀ s p a, Decidable (ok s p a)] (c : Pool P σ A R α) :
    (e : PoolEvent P C) → Decidable (allows ok c e)
  | .start _ _ => .isTrue trivial
  | .run p =>
    match h : c.next p with
    | none => .isTrue (by simp [allows, h])
    | some a => decidable_of_iff (ok c.state p a) (by simp [allows, h])

/-- The ledger fits what is left of the thread's program; `Idle` is what holds between calls. -/
def Fits (S : Rules A R L) (Idle : L → Prop) : Option (Prog A R α) → L → Prop
  | none, l => Idle l
  | some t, l => S.wp t (fun _ l' => Idle l') l

/-- Some ledgers tie the state to the threads. -/
def Tied (S : Rules A R L) (Idle : L → Prop) (Inv : σ → (P → L) → Prop) (c : Pool P σ A R α) :
    Prop :=
  ∃ ls, Inv c.state ls ∧ ∀ p, Fits S Idle (c.thread p) (ls p)

/-- A field that one thread's new ledger keeps is the same in all ledgers. -/
theorem field_update {β : Type} (f : L → β) {ls : P → L} {p : P} {l : L} (h : f l = f (ls p))
    (q : P) : f (Function.update ls p l q) = f (ls q) := by
  by_cases hq : q = p
  · rw [hq, Function.update_self, h]
  · rw [Function.update_of_ne hq]

theorem fits_update {S : Rules A R L} {Idle : L → Prop} {thread : P → Option (Prog A R α)} {ls : P → L}
    (h : ∀ q, Fits S Idle (thread q) (ls q)) {p : P} {t : Option (Prog A R α)} {l : L}
    (hp : Fits S Idle t l) (q : P) :
    Fits S Idle (Function.update thread p t q) (Function.update ls p l q) := by
  by_cases hq : q = p
  · subst q
    simpa using hp
  · simpa [hq] using h q

section

variable {M : Kernel P σ ε A R α C} {S : Rules A R L} {Idle : L → Prop} {Inv : σ → (P → L) → Prop}

/-- The invariant rule for one step, in which what the other threads do next may matter. -/
theorem Tied.act {c c' : Pool P σ A R α} {e : PoolEvent P C}
    (hact : ∀ ls p a r s', Inv c.state ls → (∀ q, Fits S Idle (c.thread q) (ls q)) → e = .run p →
      c.next p = some a → S.pre a (ls p) → M.exec p a c.state = .next (r, s') →
      ∃ l', S.post a (ls p) r l' ∧ Inv s' (Function.update ls p l'))
    (h : Tied S Idle Inv c)
    (hprog : ∀ p call, e = .start p call → ∀ l, Idle l →
      S.wp (M.prog call) (fun _ l' => Idle l') l)
    (hs : M.step c e = .next c') : Tied S Idle Inv c' := by
  obtain ⟨ls, hinv, hfit⟩ := h
  cases e with
  | start p call =>
    simp only [Kernel.step] at hs
    split at hs
    · rename_i hidle
      split_ifs at hs
      cases hs
      refine ⟨ls, hinv, fun q => ?_⟩
      have hlp : Idle (ls p) := by
        have hp := hfit p
        rwa [hidle] at hp
      have hq := fits_update hfit (p := p) (t := some (M.prog call)) (l := ls p)
        (hprog p call rfl _ hlp) q
      rwa [Function.update_eq_self] at hq
    · cases hs
  | run p =>
    simp only [Kernel.step] at hs
    have hp := hfit p
    split at hs
    · cases hs
    · rename_i x hret
      cases hs
      rw [hret] at hp
      refine ⟨ls, hinv, fun q => ?_⟩
      have hq := fits_update hfit (p := p) (t := none) (l := ls p) hp q
      rwa [Function.update_eq_self] at hq
    · rename_i a k hnext
      rw [hnext] at hp
      split at hs <;> cases hs
      rename_i r s hexec
      obtain ⟨l', hpost, hinv'⟩ :=
        hact ls p a r s hinv hfit rfl (by simp [Pool.next, hnext]) hp.1 hexec
      exact ⟨Function.update ls p l', hinv', fits_update hfit (hp.2 r l' hpost)⟩

/-- The invariant rule: what every action keeps is kept by every interleaving of verified
programs. -/
theorem Tied.step (ok : σ → P → A → Prop)
    (hact : ∀ s ls p a r s', Inv s ls → S.pre a (ls p) → ok s p a →
      M.exec p a s = .next (r, s') → ∃ l', S.post a (ls p) r l' ∧ Inv s' (Function.update ls p l'))
    (c : Pool P σ A R α) (e : PoolEvent P C) (c' : Pool P σ A R α) (h : Tied S Idle Inv c)
    (hprog : ∀ p call, e = .start p call → ∀ l, Idle l →
      S.wp (M.prog call) (fun _ l' => Idle l') l)
    (hok : allows ok c e) (hs : M.step c e = .next c') : Tied S Idle Inv c' := by
  refine h.act (fun ls p a r s' hinv _ he hnext hpre hexec => ?_) hprog hs
  subst he
  exact hact c.state ls p a r s' hinv hpre (hok a hnext) hexec

end

theorem step_panic {M : Kernel P σ ε A R α C} {c : Pool P σ A R α} {e : PoolEvent P C} {x : ε}
    (h : M.step c e = .panic x) : ∃ p a, c.next p = some a ∧ M.exec p a c.state = .panic x := by
  cases e with
  | start p call =>
    simp only [Kernel.step] at h
    split at h
    · split at h <;> cases h
    · cases h
  | run p =>
    simp only [Kernel.step] at h
    split at h
    · cases h
    · cases h
    · rename_i a k hthread
      refine ⟨p, a, by simp [Pool.next, hthread], ?_⟩
      split at h <;> cases h
      assumption

omit [DecidableEq P] in
theorem Fits.pre {S : Rules A R L} {Idle : L → Prop} {c : Pool P σ A R α} {p : P} {a : A} {l : L}
    (h : Fits S Idle (c.thread p) l) (ha : c.next p = some a) : S.pre a l := by
  unfold Pool.next at ha
  split at ha
  · rename_i b k hthread
    obtain rfl := Option.some.inj ha
    rw [hthread] at h
    exact h.1
  · cases ha

end Kernel

end Xv6
