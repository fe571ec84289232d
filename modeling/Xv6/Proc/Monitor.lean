import Xv6.Proc.Sleep

/-!
# Assertions and wakeups

Two rules for code that runs by `Sleep.Sys.step`.  By the first the points of the code carry
assertions about the data, which every process keeps up for itself and which no access of another
process to the data spoils.  The second is for code that waits: whoever brings about what others wait
for has the lock at that time, and calls `wakeup` before the lock is free again.
-/

set_option linter.unusedSectionVars false

namespace Xv6.Sleep

open Function (update_of_ne update_self)

variable {P K L C D : Type} [DecidableEq P] [DecidableEq L] [DecidableEq C]
variable {code : P → K → Act K L C D} {holds : K → Option L} {s s' : Sys P K L C D} {p : P}

/-- Where the process stands in the code, or where `sleep` will return to -/
def Pc.point : Pc K L C → K
  | .code k | .sleep _ _ k | .sleepRelease _ _ k | .sleepMark _ _ k | .asleep _ _ k => k

/-- From `d` the act leads to points whose assertions hold. -/
def Act.verifies (I : D → Prop) (A : K → D → Prop) (d : D) : Act K L C D → Prop
  | .choose ok => ∀ k, ok k = true → A k d
  | .acquire _ k | .release _ k | .sleep _ _ k | .wakeup _ k => A k d
  | .data f => I (f d).1 ∧ A (f d).2 (f d).1
  | .killed yes no => A yes d ∧ A no d

/-- An invariant of the data, and an assertion for every point -/
structure Outline (code : P → K → Act K L C D) (holds : K → Option L) (I : D → Prop)
    (A : P → K → D → Prop) : Prop where
  own : ∀ {p k d}, I d → A p k d → (code p k).verifies I (A p) d
  /-- Another process is not under a lock that `p` holds. -/
  others : ∀ {p q k f d} {pc : Pc K L C}, code p k = .data f → q ≠ p → I d → A p k d →
    pc.called (code q) → (∀ l, holds k = some l → pc.holds holds ≠ some l) → A q pc.point d →
    A q pc.point (f d).1

def Sys.Follows (s : Sys P K L C D) (I : D → Prop) (A : P → K → D → Prop) : Prop :=
  I s.data ∧ ∀ p, A p (s.thread p).pc.point s.data

variable {I : D → Prop} {A : P → K → D → Prop} {e : Event P K}

theorem Sys.Follows.moved (h : s.Follows I A) {x : Thread K L C} (hx : A p x.pc.point s.data)
    (lock : L → Option P) (ptlock : Option P) :
    Sys.Follows ⟨s.data, lock, ptlock, Function.update s.thread p x⟩ I A := by
  refine ⟨h.1, fun q => ?_⟩
  dsimp only
  by_cases hq : q = p
  · subst q
    rw [update_self]
    exact hx
  · rw [update_of_ne hq]
    exact h.2 q

theorem Sys.Follows.wakeup1 (h : s.Follows I A) (c : C) : (s.wakeup1 c).Follows I A := by
  refine ⟨h.1, fun q => ?_⟩
  rw [pc_wakeup1]
  exact h.2 q

theorem Outline.step (ho : Outline code holds I A) (hl : Locked code holds s) (h : s.Follows I A)
    (hs : s.step code e = .next s') : s'.Follows I A := by
  have hcode : ∀ {p k}, (s.thread p).pc = .code k → A p k s.data := by
    intro p k hpc
    have hp := h.2 p
    rwa [hpc] at hp
  have hown : ∀ {p k a}, (s.thread p).pc = .code k → code p k = a → a.verifies I (A p) s.data := by
    intro p k a hpc hact
    rw [← hact]
    exact ho.own h.1 (hcode hpc)
  -- Inside of `sleep` nothing is asserted but what holds behind it.
  have hsame : ∀ {p} {pc pc' : Pc K L C}, (s.thread p).pc = pc → pc'.point = pc.point →
      A p pc'.point s.data := by
    intro p pc pc' hpc hpoint
    rw [hpoint, ← hpc]
    exact h.2 p
  cases Moves.of_step hs with
  | go hpc hact hok =>
    refine h.moved ?_ ..
    exact hown hpc hact _ hok
  | acquire hpc hact | release hpc hact | sleep hpc hact =>
    refine h.moved ?_ ..
    exact hown hpc hact
  | @data p k f hpc hact =>
    obtain ⟨hdata, hnext⟩ := hown hpc hact
    refine ⟨hdata, fun q => ?_⟩
    dsimp only [Sys.goto]
    by_cases hq : q = p
    · subst q
      rw [update_self]
      exact hnext
    · rw [update_of_ne hq]
      refine ho.others hact hq h.1 (hcode hpc) (hl.called q) (fun l hk hql => ?_) (h.2 q)
      exact hq (hl.mutex hql (by rw [hpc]; exact hk))
  | killed hpc hact =>
    have hnext := hown hpc hact
    refine h.moved ?_ ..
    dsimp only [Pc.point]
    split
    · exact hnext.1
    · exact hnext.2
  | @wakeup p k k' c hpc hact =>
    refine (h.wakeup1 c).moved ?_ ..
    exact hown hpc hact
  | sleepAcquire hpc | sleepRelease hpc | sleepMark hpc | wake hpc => exact h.moved (hsame hpc rfl) ..
  | @kill p =>
    refine h.moved ?_ ..
    exact h.2 p

/-- The process is SLEEPING on the channel, or has given up its lock to become so. -/
def Thread.waits (x : Thread K L C) (c : C) : Prop :=
  match x.pc with
  | .sleepMark c' _ _ => c' = c
  | .asleep c' _ _ => c' = c ∧ x.sleeping = true
  | _ => False

theorem Thread.not_waits {x : Thread K L C} {k : K} (hx : x.pc = .code k) (c : C) : ¬x.waits c := by
  rw [waits, hx]
  exact id

theorem Thread.waits_of_awake {pc : Pc K L C} {sleeping killed killed' : Bool} {c : C}
    (h : Thread.waits ⟨pc, false, killed⟩ c) : Thread.waits ⟨pc, sleeping, killed'⟩ c := by
  cases pc with
  | asleep => cases h.2
  | code | sleep | sleepRelease | sleepMark => exact h

theorem Thread.waits_of_sleepsOn {x : Thread K L C} {c : C} (h : x.sleepsOn c = true) : x.waits c := by
  rw [sleepsOn, Bool.and_eq_true, decide_eq_true_iff] at h
  rw [waits]
  cases hpc : x.pc with
  | asleep =>
    rw [hpc] at h
    exact ⟨Option.some.inj h.2, h.1⟩
  | code | sleep | sleepRelease | sleepMark =>
    rw [hpc] at h
    cases h.2

/-- Those who wait on a channel wait for the data to be `ready`; they do so under the lock `mon`, and
at some points the process has yet to call `wakeup`. -/
structure Signal (K L C D : Type) where
  mon : C → L
  ready : C → D → Bool
  owes : C → K → Bool

variable {g : Signal K L C D} {c : C}

/-- What the act has to do with those who wait on the channel -/
def Act.signals (g : Signal K L C D) (holds : K → Option L) (k : K) (d : D) (c : C) :
    Act K L C D → Prop
  | .choose _ | .release _ _ => g.owes c k = false
  | .acquire _ _ => True
  | .data f => g.ready c (f d).1 = true →
      g.ready c d = true ∧ (g.owes c k = true → g.owes c (f d).2 = true) ∨
        holds k = some (g.mon c) ∧ g.owes c (f d).2 = true
  | .killed _ no => g.owes c k = true → g.owes c no = true
  | .sleep c' l _ => g.owes c k = false ∧ (c' = c → l = g.mon c ∧ g.ready c d = false)
  | .wakeup c' k' => c' = c ∨ (g.owes c k = true → g.owes c k' = true)

structure Signals (g : Signal K L C D) (code : P → K → Act K L C D) (holds : K → Option L)
    (I : D → Prop) (A : P → K → D → Prop) : Prop where
  held : ∀ {c k}, g.owes c k = true → holds k = some (g.mon c)
  act : ∀ {p k d c}, I d → A p k d → (code p k).signals g holds k d c

/-- Who has been killed still owes what it owed before it tested `killed`. -/
def Sys.pays (g : Signal K L C D) (code : P → K → Act K L C D) (s : Sys P K L C D) :
    Event P K → Prop
  | .run p => ∀ k yes no c, (s.thread p).pc = .code k → code p k = .killed yes no →
      (s.thread p).killed = true → g.owes c k = true → g.owes c yes = true
  | .go _ _ | .kill _ => True

/-- Who waits for what has come will be woken. -/
structure Sys.Signalled (g : Signal K L C D) (s : Sys P K L C D) : Prop where
  decided : ∀ {q c l k}, (s.thread q).pc = .sleep c l k ∨ (s.thread q).pc = .sleepRelease c l k →
    l = g.mon c ∧ g.ready c s.data = false
  owed : ∀ {q c}, (s.thread q).waits c → g.ready c s.data = true →
    ∃ r k, (s.thread r).pc = .code k ∧ g.owes c k = true

namespace Sys.Signalled

section

variable (h : s.Signalled g) {x : Thread K L C}
  (hdecided : ∀ {c l k}, x.pc = .sleep c l k ∨ x.pc = .sleepRelease c l k →
    l = g.mon c ∧ g.ready c s.data = false)
  (hwaits : ∀ {c}, x.waits c → (s.thread p).waits c ∨ g.ready c s.data = false)
include h hdecided hwaits

theorem moved
    (howes : ∀ {c k}, (s.thread p).pc = .code k → g.owes c k = true → (∃ q, (s.thread q).waits c) →
      ∃ k', x.pc = .code k' ∧ g.owes c k' = true)
    (lock : L → Option P) (ptlock : Option P) :
    Sys.Signalled g ⟨s.data, lock, ptlock, Function.update s.thread p x⟩ := by
  refine ⟨fun {q c l k} hq => ?_, fun {q c} hq hready => ?_⟩
  · dsimp only at hq ⊢
    by_cases hqp : q = p
    · subst q
      rw [update_self] at hq
      exact hdecided hq
    · rw [update_of_ne hqp] at hq
      exact h.decided hq
  · dsimp only at hq hready ⊢
    have hold : (s.thread q).waits c := by
      by_cases hqp : q = p
      · subst q
        rw [update_self] at hq
        exact (hwaits hq).resolve_right (by rw [hready]; nofun)
      · rwa [update_of_ne hqp] at hq
    obtain ⟨r, k, hr, hk⟩ := h.owed hold hready
    by_cases hrp : r = p
    · subst r
      obtain ⟨k', hk', howe⟩ := howes hr hk ⟨q, hold⟩
      exact ⟨p, k', by rw [update_self, hk'], howe⟩
    · exact ⟨r, k, by rw [update_of_ne hrp, hr], hk⟩

/-- A process that has no debts moves on in `sleep`. -/
theorem within (hfree : ∀ {c k}, (s.thread p).pc = .code k → g.owes c k = false)
    (lock : L → Option P) (ptlock : Option P) :
    Sys.Signalled g ⟨s.data, lock, ptlock, Function.update s.thread p x⟩ := by
  refine h.moved hdecided hwaits (fun hpc hk => ?_) lock ptlock
  rw [hfree hpc] at hk
  cases hk

end

/-- A process moves to a point with the debts that it had. -/
theorem goto (h : s.Signalled g) {k' : K}
    (howes : ∀ {c k}, (s.thread p).pc = .code k → g.owes c k = true → g.owes c k' = true)
    (lock : L → Option P) (ptlock : Option P) :
    Sys.Signalled g ⟨s.data, lock, ptlock,
      Function.update s.thread p { s.thread p with pc := .code k' }⟩ := by
  refine h.moved ?_ ?_ ?_ lock ptlock
  · rintro c l k (hpc | hpc) <;> cases hpc
  · exact fun hw => absurd hw (Thread.not_waits rfl _)
  · exact fun hpc hk _ => ⟨k', rfl, howes hpc hk⟩

theorem waits_wakeup1 {q : P} {c' : C} (h : ((s.wakeup1 c').thread q).waits c) :
    (s.thread q).waits c := by
  change ((s.thread q).wake c').waits c at h
  rw [Thread.wake] at h
  split at h
  · exact Thread.waits_of_awake h
  · exact h

/-- `wakeup` needs `ptable.lock`, and so finds nobody between `release(lk)` and `SLEEPING`. -/
theorem not_waits_wakeup1 (hl : Locked code holds s) (hfree : s.ptlock = none) (q : P) :
    ¬((s.wakeup1 c).thread q).waits c := by
  intro hw
  have hold := waits_wakeup1 hw
  rw [Thread.waits] at hold
  cases hpc : (s.thread q).pc with
  | sleepMark =>
    exact nomatch (hl.ptlock_eq (by rw [hpc]; rfl)).symm.trans hfree
  | asleep c' l k =>
    rw [hpc] at hold
    change ((s.thread q).wake c).waits c at hw
    rw [Thread.wake, if_pos (by rw [hpc, ← hold.1]; rfl), Thread.waits, hpc] at hw
    cases hw.2
  | code | sleep | sleepRelease =>
    rw [hpc] at hold
    exact hold

theorem wakeup1 (h : s.Signalled g) (c : C) : (s.wakeup1 c).Signalled g := by
  refine ⟨fun {q c l k} hq => ?_, fun {q c} hq hready => ?_⟩
  · rw [pc_wakeup1] at hq
    exact h.decided hq
  · obtain ⟨r, k, hr, hk⟩ := h.owed (waits_wakeup1 hq) hready
    exact ⟨r, k, by rw [pc_wakeup1, hr], hk⟩

theorem data (h : s.Signalled g) (hl : Locked code holds s) {k : K} {f : D → D × K}
    (hpc : (s.thread p).pc = .code k)
    (hact : ∀ c, Act.signals g holds k s.data c (.data f : Act K L C D)) :
    Sys.Signalled g { s.goto p (.code (f s.data).2) with data := (f s.data).1 } := by
  refine ⟨fun {q c l k'} hq => ?_, fun {q c} hq hready => ?_⟩
  · dsimp only [Sys.goto] at hq ⊢
    have hqp : q ≠ p := by
      rintro rfl
      rw [update_self] at hq
      rcases hq with hq | hq <;> cases hq
    rw [update_of_ne hqp] at hq
    obtain ⟨rfl, hno⟩ := h.decided hq
    refine ⟨rfl, Bool.eq_false_iff.mpr fun hready => ?_⟩
    rcases hact c hready with ⟨hold, -⟩ | ⟨hk, -⟩
    · exact nomatch hno.symm.trans hold
    · -- Both would hold the lock.
      refine hqp (hl.mutex (l := g.mon c) ?_ (by rw [hpc]; exact hk))
      rcases hq with hq | hq <;> rw [hq] <;> rfl
  · dsimp only [Sys.goto] at hq hready ⊢
    have hqp : q ≠ p := by
      rintro rfl
      rw [update_self] at hq
      exact Thread.not_waits rfl c hq
    rw [update_of_ne hqp] at hq
    rcases hact c hready with ⟨hold, hkeeps⟩ | ⟨-, howes⟩
    · obtain ⟨r, k', hr, hk'⟩ := h.owed hq hold
      by_cases hrp : r = p
      · subst r
        cases hpc.symm.trans hr
        exact ⟨p, _, by rw [update_self], hkeeps hk'⟩
      · exact ⟨r, k', by rw [update_of_ne hrp, hr], hk'⟩
    · exact ⟨p, _, by rw [update_self], howes⟩

end Sys.Signalled

theorem Signals.step (hg : Signals g code holds I A) (hcode : ∀ p k, (code p k).keeps holds k)
    (hl : Locked code holds s) (hf : s.Follows I A) (h : s.Signalled g) (hok : s.pays g code e)
    (hs : s.step code e = .next s') : s'.Signalled g := by
  have hact : ∀ {p k a}, (s.thread p).pc = .code k → code p k = a →
      ∀ c, a.signals g holds k s.data c := by
    intro p k a hpc ha c
    have hp := hf.2 p
    rw [hpc] at hp
    rw [← ha]
    exact hg.act hf.1 hp
  have hfree : ∀ {p k} {α : Prop}, (s.thread p).pc = .code k → (∀ c, g.owes c k = false) →
      ∀ {c k'}, (s.thread p).pc = .code k' → g.owes c k' = true → α := by
    intro p k α hpc hnone c k' hpc' hk'
    cases hpc.symm.trans hpc'
    exact nomatch (hnone c).symm.trans hk'
  have hinside : ∀ {p k} {pc : Pc K L C}, (s.thread p).pc = pc → (∀ k, pc ≠ .code k) →
      ∀ {c}, (s.thread p).pc = .code k → g.owes c k = false :=
    fun hpc hne _ hpc' => absurd (hpc.symm.trans hpc') (hne _)
  cases Moves.of_step hs with
  | go hpc hact' hgo | release hpc hact' => exact h.goto (hfree hpc (hact hpc hact')) ..
  | @acquire p k k' l hpc hact' =>
    refine h.goto (hfree hpc fun c => Bool.eq_false_iff.mpr fun howes => ?_) ..
    have hkeeps := hcode p k
    rw [hact'] at hkeeps
    exact nomatch hkeeps.1.symm.trans (hg.held howes)
  | data hpc hact' => exact h.data hl hpc (hact hpc hact')
  | @killed p k yes no hpc hact' =>
    refine h.goto (fun hpc' howes => ?_) ..
    cases hpc.symm.trans hpc'
    split
    next hkilled => exact hok k yes no _ hpc hact' hkilled howes
    next => exact hact hpc hact' _ howes
  | @sleep p k k' c l hpc hact' =>
    refine h.within ?_ (fun hw => .inl ?_) (fun hpc' => ?_) ..
    · rintro c' l' k'' (heq | heq) <;> cases heq
      exact (hact hpc hact' c).2 rfl
    · exact hw.elim
    · cases hpc.symm.trans hpc'
      exact (hact hpc hact' _).1
  | @wakeup p k k' c hpc hact' hpt =>
    refine (h.wakeup1 c).moved ?_ ?_ ?_ ..
    · rintro c l k (heq | heq) <;> cases heq
    · exact fun hw => absurd hw (Thread.not_waits rfl _)
    · intro c' k₀ hk₀ howes hwaits
      rw [pc_wakeup1] at hk₀
      cases hpc.symm.trans hk₀
      refine ⟨k', rfl, ?_⟩
      rcases hact hpc hact' c' with rfl | hkeeps
      · obtain ⟨q, hq⟩ := hwaits
        exact absurd hq (Sys.Signalled.not_waits_wakeup1 hl hpt q)
      · exact hkeeps howes
  | sleepAcquire hpc =>
    refine h.within ?_ (fun hw => .inl ?_) (hinside hpc nofun) ..
    · rintro c l k (heq | heq) <;> cases heq
      exact h.decided (.inl hpc)
    · exact hw.elim
  | sleepRelease hpc =>
    refine h.within ?_ (fun hw => .inr ?_) (hinside hpc nofun) ..
    · rintro c l k (heq | heq) <;> cases heq
    · exact (show _ = _ from hw) ▸ (h.decided (.inr hpc)).2
  | sleepMark hpc =>
    refine h.within ?_ (fun hw => .inl ?_) (hinside hpc nofun) ..
    · rintro c l k (heq | heq) <;> cases heq
    · rw [Thread.waits, hpc]
      exact hw.1
  | wake hpc => exact h.goto (fun hpc' => nomatch hpc.symm.trans hpc') ..
  | @kill p =>
    refine h.moved ?_ (fun hw => .inl ?_) ?_ ..
    · exact fun hpc => h.decided hpc
    · exact Thread.waits_of_awake hw
    · exact fun hpc hk _ => ⟨_, hpc, hk⟩

theorem Sys.Signalled.not_ready (h : s.Signalled g) (hg : Signals g code holds I A)
    (hl : Locked code holds s) (hfree : s.lock (g.mon c) = none)
    (hsleep : (s.thread p).sleepsOn c = true) : g.ready c s.data = false := by
  refine Bool.eq_false_iff.mpr fun hready => ?_
  obtain ⟨r, k, hr, hk⟩ := h.owed (Thread.waits_of_sleepsOn hsleep) hready
  have hheld : (s.thread r).pc.holds holds = some (g.mon c) := by
    rw [hr]
    exact hg.held hk
  have hlock : s.lock (g.mon c) = some r := (hl.lock _ r).mpr hheld
  exact nomatch hlock.symm.trans hfree

end Xv6.Sleep
