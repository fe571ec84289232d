import Xv6.Proc.Slots
import Xv6.Proc.TicketTable

/-!
# Ticket inheritance

A process holds what it last set, or else what its parent held when `fork` looked it up by pid.
The lookup finds the parent because pids are distinct in the slots in use, and the bound of 10
changes nothing because no process holds fewer.
-/

namespace Xv6

def TicketEvent.pid : TicketEvent → Int
  | .set pid _ | .inherited pid _ => pid

/-- The argument of the last successful `settickets` of `pid`. -/
def lastSet (pid : Int) : List TicketEvent → Option Int
  | [] => none
  | .set q n :: h => if q = pid then some n else lastSet pid h
  | .inherited _ _ :: h => lastSet pid h

/-- What the parent of `pid` held when `fork` read it. -/
def inheritedBy (pid : Int) : List TicketEvent → Option Int
  | [] => none
  | .set _ _ :: h => inheritedBy pid h
  | .inherited q t :: h => if q = pid then some t else inheritedBy pid h

/-- Tickets that `pid` is due after the history `h`; the first process starts with 10. -/
def due (pid : Int) (h : List TicketEvent) : Option Int :=
  (lastSet pid h).or (if pid = 1 then some 10 else inheritedBy pid h)

theorem due_cons_of_ne {pid : Int} {ev : TicketEvent} (h : List TicketEvent) (hne : ev.pid ≠ pid) :
    due pid (ev :: h) = due pid h := by
  cases ev <;> simp_all [due, lastSet, inheritedBy, TicketEvent.pid]

theorem due_set (pid n : Int) (h : List TicketEvent) : due pid (.set pid n :: h) = some n := by
  simp [due, lastSet]

theorem lastSet_of_unborn {pid : Int} {h : List TicketEvent} (hun : ∀ ev ∈ h, ev.pid ≠ pid) :
    lastSet pid h = none := by
  induction h with
  | nil => rfl
  | cons ev h ih =>
    have hrest := ih fun x hx => hun x (List.mem_cons_of_mem _ hx)
    have hev := hun ev List.mem_cons_self
    cases ev <;> simp_all [lastSet, TicketEvent.pid]

theorem due_inherited {pid t : Int} {h : List TicketEvent} (hpid : pid ≠ 1)
    (hun : ∀ ev ∈ h, ev.pid ≠ pid) : due pid (.inherited pid t :: h) = some t := by
  simp [due, lastSet, inheritedBy, hpid, lastSet_of_unborn hun]

/-- Tickets that `fork` has promised to the child in slot `i`, or has given it. -/
def TicketTable.promise (s : TicketTable) (i : Slot) : Option Int :=
  match s.stage i with
  | .begun => none
  | .read t | .reset t => some t
  | .filled => some (s.tickets i)

theorem TicketTable.forkStep_next {s s' : TicketTable} {p : Slot}
    {f : Slot → ForkStage → Option TicketTable} (hs : s.forkStep p f = .next s') :
    ∃ np, (s.base.proc p).state = .running ∧ s.base.pc p = .forkPublish np ∧
      f np (s.stage np) = some s' := by
  unfold TicketTable.forkStep at hs
  split at hs
  · rename_i np hrun hpc
    split at hs
    · rename_i t ht
      cases hs
      exact ⟨np, hrun, hpc, ht⟩
    · cases hs
  · cases hs

structure TicketInv (s : TicketTable) : Prop where
  life : LifeInv s.base
  first : (s.base.proc initproc).pid = 1
  below : ∀ ev ∈ s.history, ev.pid < s.base.nextpid
  filling : ∀ i, s.stage i ≠ .begun → ∃ p, s.base.pc p = .forkPublish i
  unborn : ∀ i, (s.base.proc i).state = .embryo → s.stage i = .begun →
    ∀ ev ∈ s.history, ev.pid ≠ (s.base.proc i).pid
  promised : ∀ i t, s.promise i = some t → 10 ≤ t ∧ due (s.base.proc i).pid s.history = some t
  holds : ∀ i, (s.base.proc i).state.phase = .occupied →
    10 ≤ s.tickets i ∧ due (s.base.proc i).pid s.history = some (s.tickets i)
  ticks : ∀ i, s.ticks i = 0

namespace TicketInv

variable {s s' : TicketTable} {i : Slot}

theorem init : TicketInv TicketTable.init where
  life := LifeInv.start
  first := rfl
  below := by simp [TicketTable.init]
  filling := by simp [TicketTable.init]
  unborn := by simp [TicketTable.init]
  promised := by simp [TicketTable.init, TicketTable.promise]
  holds i hi := by
    by_cases h0 : i = initproc
    · subst h0
      exact ⟨le_refl _, rfl⟩
    · simp [TicketTable.init, Ptable.init, h0, ProcState.phase] at hi
  ticks _ := rfl

theorem embryo (h : TicketInv s) (hi : s.stage i ≠ .begun) : (s.base.proc i).state = .embryo := by
  obtain ⟨p, hp⟩ := h.filling i hi
  exact h.life.forking p i (by simp [hp, ProcPc.forking])

theorem stage_of_promise {t : Int} (hi : s.promise i = some t) : s.stage i ≠ .begun := by
  intro hb
  simp [TicketTable.promise, hb] at hi

theorem pid_ne (h : TicketInv s) {j : Slot} (hi : (s.base.proc i).state ≠ .unused)
    (hj : (s.base.proc j).state ≠ .unused) (hij : i ≠ j) :
    (s.base.proc i).pid ≠ (s.base.proc j).pid :=
  fun hpid => hij (h.life.distinct i j hi hj hpid)

theorem due_other (h : TicketInv s) {j : Slot} {ev : TicketEvent}
    (hev : ev.pid = (s.base.proc j).pid) (hi : (s.base.proc i).state ≠ .unused)
    (hj : (s.base.proc j).state ≠ .unused) (hij : i ≠ j) :
    due (s.base.proc i).pid (ev :: s.history) = due (s.base.proc i).pid s.history :=
  due_cons_of_ne _ (by
    rw [hev]
    exact h.pid_ne hj hi hij.symm)

theorem gettickets_self (h : TicketInv s) (hi : (s.base.proc i).state ≠ .unused) :
    s.gettickets (s.base.proc i).pid = s.tickets i := by
  unfold TicketTable.gettickets
  split
  · rename_i j hfind
    have hj := List.find?_some hfind
    simp only [decide_eq_true_eq] at hj
    rw [h.life.distinct j i hj.2 hi hj.1]
  · rename_i hfind
    have hnone := List.find?_eq_none.mp hfind i (List.mem_finRange i)
    simp [hi] at hnone

variable {g : ForkStage}

section

variable (h : TicketInv s)
include h

theorem readTickets {p np : Slot} (hrun : (s.base.proc p).state = .running)
    (hpc : s.base.pc p = .forkPublish np) (hg : s.stage np = g)
    (hs : s.readTickets p np g = some s') : TicketInv s' := by
  cases g with
  | begun =>
    obtain rfl := Option.some.inj hs
    have hp : (s.base.proc p).state ≠ .unused := by simp [hrun]
    have hembryo := h.life.forking p np (by simp [hpc, ProcPc.forking])
    have hnp : (s.base.proc np).state ≠ .unused := by simp [hembryo]
    have hheld := h.holds p (by simp [hrun, ProcState.phase])
    have hpid : (s.base.proc np).pid ≠ 1 := by
      rw [← h.first]
      apply h.pid_ne hnp
      · intro hunused
        have halive := h.life.init
        simp [hunused, ProcState.alive] at halive
      · rintro rfl
        have halive := h.life.init
        simp [hembryo, ProcState.alive] at halive
    constructor
    case life => exact h.life
    case first => exact h.first
    case ticks => exact h.ticks
    case below =>
      intro ev hev
      rcases List.mem_cons.mp hev with rfl | hev
      · exact h.life.below np hnp
      · exact h.below ev hev
    case filling =>
      intro i hi
      by_cases hin : i = np
      · subst hin
        exact ⟨p, hpc⟩
      · exact h.filling i (by simpa [hin] using hi)
    case unborn =>
      intro i hi hb ev hev
      have hin : i ≠ np := by
        rintro rfl
        simp at hb
      have hlive : (s.base.proc i).state ≠ .unused := by simp_all
      rcases List.mem_cons.mp hev with rfl | hev
      · exact h.pid_ne hnp hlive hin.symm
      · exact h.unborn i hi (by simpa [hin] using hb) ev hev
    case promised =>
      intro i t hi
      by_cases hin : i = np
      · subst hin
        have ht : s.gettickets (s.base.proc p).pid = t := by simpa [TicketTable.promise] using hi
        rw [h.gettickets_self hp] at ht
        subst ht
        exact ⟨hheld.1, due_inherited hpid (h.unborn i hembryo hg)⟩
      · have hi' : s.promise i = some t := by simpa [TicketTable.promise, hin] using hi
        have hlive : (s.base.proc i).state ≠ .unused := by simp [h.embryo (stage_of_promise hi')]
        have hdue := h.promised i t hi'
        exact ⟨hdue.1, (h.due_other rfl hlive hnp hin).trans hdue.2⟩
    case holds =>
      intro i hi
      have hin : i ≠ np := by
        rintro rfl
        simp [hembryo, ProcState.phase] at hi
      have hlive : (s.base.proc i).state ≠ .unused := by
        intro hun
        simp [hun, ProcState.phase] at hi
      have hdue := h.holds i hi
      exact ⟨hdue.1, (h.due_other rfl hlive hnp hin).trans hdue.2⟩
  | _ => cases hs

theorem resetTicks {np : Slot} (hg : s.stage np = g)
    (hs : s.resetTicks np g = some s') : TicketInv s' := by
  cases g with
  | read t =>
    obtain rfl := Option.some.inj hs
    have hstage (i : Slot) : ((s.setTicks np 0).setStage np (.reset t)).stage i = .begun ↔
        s.stage i = .begun := by
      by_cases hin : i = np <;> simp_all
    have hpromise (i : Slot) : ((s.setTicks np 0).setStage np (.reset t)).promise i =
        s.promise i := by
      by_cases hin : i = np <;> simp [TicketTable.promise, hin, hg]
    exact ⟨h.life, h.first, h.below, fun i hi => h.filling i (mt (hstage i).mpr hi),
      fun i hi hb => h.unborn i hi ((hstage i).mp hb),
      fun i t hi => h.promised i t (hpromise i ▸ hi), h.holds,
      fun i => by by_cases hin : i = np <;> simp [hin, h.ticks]⟩
  | _ => cases hs

theorem fillTickets {np : Slot} (hg : s.stage np = g)
    (hs : s.fillTickets np g = some s') : TicketInv s' := by
  cases g with
  | reset t =>
    obtain rfl := Option.some.inj hs
    have ht := (h.promised np t (by simp [TicketTable.promise, hg])).1
    have hembryo := h.embryo (i := np) (by simp [hg])
    -- No process holds fewer than 10 tickets, so the parent's number is written as it is.
    have hclamp : (if t > 10 then t else 10) = t := by
      split_ifs <;> omega
    rw [hclamp]
    have hstage (i : Slot) : ((s.setTickets np t).setStage np .filled).stage i = .begun ↔
        s.stage i = .begun := by
      by_cases hin : i = np <;> simp_all
    have hpromise (i : Slot) : ((s.setTickets np t).setStage np .filled).promise i =
        s.promise i := by
      by_cases hin : i = np <;> simp [TicketTable.promise, hin, hg]
    refine ⟨h.life, h.first, h.below, fun i hi => h.filling i (mt (hstage i).mpr hi),
      fun i hi hb => h.unborn i hi ((hstage i).mp hb),
      fun i t hi => h.promised i t (hpromise i ▸ hi), ?_, h.ticks⟩
    intro i hi
    have hin : i ≠ np := by
      rintro rfl
      simp [hembryo, ProcState.phase] at hi
    simpa [hin] using h.holds i hi
  | _ => cases hs

theorem settickets {p : Slot} {n : Int}
    (hrun : (s.base.proc p).state = .running) : TicketInv (s.settickets p n).2 := by
  unfold TicketTable.settickets
  split_ifs with hn
  · exact h
  · have hp : (s.base.proc p).state ≠ .unused := by simp [hrun]
    constructor
    case life => exact h.life
    case first => exact h.first
    case ticks => exact h.ticks
    case filling => exact h.filling
    case below =>
      intro ev hev
      rcases List.mem_cons.mp hev with rfl | hev
      · exact h.life.below p hp
      · exact h.below ev hev
    case unborn =>
      intro i hi hb ev hev
      have hip : i ≠ p := by
        rintro rfl
        simp [hrun] at hi
      have hlive : (s.base.proc i).state ≠ .unused := by simp_all
      rcases List.mem_cons.mp hev with rfl | hev
      · exact h.pid_ne hp hlive hip.symm
      · exact h.unborn i hi hb ev hev
    case promised =>
      intro i t hi
      have hb := stage_of_promise hi
      have hembryo := h.embryo hb
      have hip : i ≠ p := by
        rintro rfl
        simp [hrun] at hembryo
      have hi' : s.promise i = some t := by simpa [TicketTable.promise, hip] using hi
      have hdue := h.promised i t hi'
      exact ⟨hdue.1, (h.due_other rfl (by simp [hembryo]) hp hip).trans hdue.2⟩
    case holds =>
      intro i hi
      by_cases hip : i = p
      · subst hip
        refine ⟨by simpa using hn, ?_⟩
        simpa using due_set (s.base.proc i).pid n s.history
      · have hlive : (s.base.proc i).state ≠ .unused := by
          intro hun
          simp [hun, ProcState.phase] at hi
        have hdue := h.holds i hi
        rw [TicketTable.note_tickets, TicketTable.setTickets_tickets, Function.update_of_ne hip]
        exact ⟨hdue.1, (h.due_other rfl hlive hp hip).trans hdue.2⟩

/-- A step of the four calls.  Where `fork` publishes a slot, that slot has been filled and its
stage starts over. -/
theorem proc {e : ProcEvent} {b : Ptable} {g : Slot → ForkStage} (hok : s.base.unwrapped e)
    (hs : s.base.step e = .next b)
    (hpub : ∀ p i, e = .publish p → s.base.pc p = .forkPublish i →
      g i = .begun ∧ s.stage i = .filled)
    (hkeep : ∀ i, (∀ p, e = .publish p → s.base.pc p ≠ .forkPublish i) → g i = s.stage i) :
    TicketInv { s with base := b, stage := g } := by
  have hinv := h.life.step hok hs
  have hsame (i : Slot) (hi : g i ≠ .begun) : g i = s.stage i :=
    hkeep i fun p he hp => hi (hpub p i he hp).1
  have hfilling (i : Slot) (hi : g i ≠ .begun) : ∃ p, b.pc p = .forkPublish i := by
    obtain ⟨p, hp⟩ := h.filling i (hsame i hi ▸ hi)
    exact ⟨p, h.life.publishing_kept hs hp fun he => hi (hpub p i he hp).1⟩
  have hinit (t : Ptable) (ht : LifeInv t) : (t.proc initproc).state ≠ .unused := by
    intro hun
    have halive := ht.init
    simp [hun, ProcState.alive] at halive
  constructor
  case life => exact hinv
  case ticks => exact h.ticks
  case filling => exact hfilling
  case first => exact (Ptable.pid_kept hs (hinit _ h.life) (hinit _ hinv)).trans h.first
  case below => exact fun ev hev => (h.below ev hev).trans_le (h.life.nextpid_le hok hs)
  case unborn =>
    intro i hi hb ev hev
    change (b.proc i).state = .embryo at hi
    have hold (hpid : (b.proc i).pid = (s.base.proc i).pid)
        (hphase : (b.proc i).state.phase = (s.base.proc i).state.phase) :
        ev.pid ≠ (b.proc i).pid := by
      have hi' : (s.base.proc i).state = .embryo :=
        phase_eq_making.mp (hphase.symm.trans (phase_eq_making.mpr hi))
      rw [hpid]
      refine h.unborn i hi' ?_ ev hev
      rw [← hkeep i ?_]
      · exact hb
      · rintro p rfl hp
        simp [publish_state hs hp] at hi
    cases Ptable.step_change hs i with
    | kept hkeep => exact hold hkeep.pid hkeep.phase
    | killed p he hpc hpid hphase | faulted he hpid hphase => exact hold hpid hphase
    | allocated p he hunused hstate hpid hkilled =>
      intro heq
      have hlt := h.below ev hev
      rw [heq] at hlt
      exact absurd hpid hlt.ne
    | failed p he hpc hstate hkilled | published p he hpc hstate hpid hkilled
    | reaped p he hz hstate hkilled => simp [hi] at hstate
  case promised =>
    intro i t hi
    have hb := stage_of_promise hi
    have hst := hsame i hb
    have hi' : s.promise i = some t := by
      rw [← hi]
      simp only [TicketTable.promise, hst]
    obtain ⟨p, hp⟩ := hfilling i hb
    have hembryo : (b.proc i).state = .embryo := hinv.forking p i (by simp [hp, ProcPc.forking])
    have hpid := Ptable.pid_kept hs (i := i) (by simp [h.embryo (stage_of_promise hi')])
      (by simp [hembryo])
    have hdue := h.promised i t hi'
    rw [← hpid] at hdue
    exact hdue
  case holds =>
    intro i hi
    change (b.proc i).state.phase = .occupied at hi
    have hold (hpid : (b.proc i).pid = (s.base.proc i).pid)
        (hphase : (b.proc i).state.phase = (s.base.proc i).state.phase) :
        10 ≤ s.tickets i ∧ due (b.proc i).pid s.history = some (s.tickets i) := by
      rw [hpid]
      exact h.holds i (hphase.symm.trans hi)
    cases Ptable.step_change hs i with
    | kept hkeep => exact hold hkeep.pid hkeep.phase
    | killed p he hpc hpid hphase | faulted he hpid hphase => exact hold hpid hphase
    | allocated p he hunused hstate hpid hkilled | failed p he hpc hstate hkilled =>
      simp [hstate, ProcState.phase] at hi
    | published p he hpc hstate hpid hkilled =>
      have hdue := h.promised i (s.tickets i) (by simp [TicketTable.promise, (hpub p i he hpc).2])
      rw [← hpid] at hdue
      exact hdue
    | reaped p he hz hstate hkilled => simp [hstate, ProcState.phase] at hi

theorem fill (c : Scan) : TicketInv (s.fill c) := by
  unfold TicketTable.fill
  split
  · exact ⟨h.life, h.first, h.below, h.filling, h.unborn, h.promised, h.holds, h.ticks⟩
  · split_ifs <;>
      exact ⟨h.life, h.first, h.below, h.filling, h.unborn, h.promised, h.holds, h.ticks⟩

theorem step {e : TicketStep} (hok : s.unwrapped e) (hs : s.step e = .next s') :
    TicketInv s' := by
  cases e with
  | proc e =>
    simp only [TicketTable.step] at hs
    split_ifs at hs with hallows
    unfold TicketTable.proc at hs
    split at hs
    · cases hs
    · cases hs
    · rename_i b hb
      split at hs
      · rename_i p
        split at hs
        · rename_i np hpc
          split_ifs at hs with hfilled
          cases hs
          apply h.proc (e := .publish p) hok hb
          · intro q i he hq
            cases he
            rw [hpc] at hq
            cases hq
            exact ⟨by simp, hfilled⟩
          · intro i hi
            have hin : i ≠ np := by
              rintro rfl
              exact hi p rfl hpc
            simp [hin]
        · cases hs
      · rename_i hne
        cases hs
        apply h.proc (e := e) hok hb
        · intro p i he _
          exact absurd he (hne p)
        · intro i _
          rfl
  | gettickets p =>
    simp only [TicketTable.step] at hs
    split_ifs at hs
    obtain ⟨np, hrun, hpc, ht⟩ := TicketTable.forkStep_next hs
    exact h.readTickets hrun hpc rfl ht
  | resetTicks p =>
    obtain ⟨np, _, _, ht⟩ := TicketTable.forkStep_next hs
    exact h.resetTicks rfl ht
  | fillTickets p =>
    obtain ⟨np, _, _, ht⟩ := TicketTable.forkStep_next hs
    exact h.fillTickets rfl ht
  | settickets p n =>
    simp only [TicketTable.step] at hs
    split_ifs at hs with hg
    cases hs
    exact h.settickets hg.1
  | getpinfo p =>
    simp only [TicketTable.step] at hs
    split_ifs at hs
    cases hs
    exact ⟨h.life, h.first, h.below, h.filling, h.unborn, h.promised, h.holds, h.ticks⟩
  | fill =>
    simp only [TicketTable.step] at hs
    split at hs <;> cases hs
    exact h.fill _

end

end TicketInv

/-- In every state reached before `nextpid` wraps, whoever has been published by `fork` holds at least 10 tickets: its last
setting, or what its parent held when `fork` read it. -/
theorem tickets_inherited {s : TicketTable}
    (h : Reach TicketTable.step TicketTable.unwrapped TicketTable.init s) :
    (∀ i, (s.base.proc i).state ≠ .unused → (s.base.proc i).state ≠ .embryo →
      10 ≤ s.tickets i ∧
      (∀ n, lastSet (s.base.proc i).pid s.history = some n → s.tickets i = n) ∧
      (lastSet (s.base.proc i).pid s.history = none →
        if i = initproc then s.tickets i = 10
        else inheritedBy (s.base.proc i).pid s.history = some (s.tickets i))) ∧
    ∀ p n, ((s.settickets p n).1 = -1 ↔ n < 10) ∧ (n < 10 → (s.settickets p n).2 = s) := by
  have hinv : TicketInv s := h.invariant TicketInv.init fun _ _ _ hs hok => hs.step hok
  constructor
  · intro i hused hmade
    have hphase : (s.base.proc i).state.phase = .occupied := by
      cases hst : (s.base.proc i).state <;> simp_all [ProcState.phase]
    obtain ⟨hten, hdue⟩ := hinv.holds i hphase
    have hfirst : (s.base.proc i).pid = 1 ↔ i = initproc := by
      constructor
      · intro hpid
        refine hinv.life.distinct i initproc hused ?_ (hpid.trans hinv.first.symm)
        intro hun
        have halive := hinv.life.init
        simp [hun, ProcState.alive] at halive
      · rintro rfl
        exact hinv.first
    refine ⟨hten, ?_, ?_⟩
    · intro n hn
      simpa [due, hn, eq_comm] using hdue
    · intro hnone
      simp only [due, hnone, Option.none_or, hfirst] at hdue
      split_ifs at hdue ⊢
      · exact (Option.some.inj hdue).symm
      · exact hdue
  · intro p n
    unfold TicketTable.settickets
    split_ifs with hn <;> simp [hn]

/-- Init takes 25 tickets and forks; the child is published with as many. -/
def forkTickets : List TicketStep :=
  [.proc (.dispatch 0), .settickets 0 25, .proc (.call 0 .fork), .proc (.allocproc 0),
    .proc (.kstack 0 true), .proc (.copyuvm 0 true), .gettickets 0, .resetTicks 0, .fillTickets 0,
    .proc (.publish 0)]

theorem tickets_inherited_fork :
    ∃ s : TicketTable, runEvents TicketTable.step TicketTable.init forkTickets = .next s ∧
      (s.base.proc 1).state = .runnable ∧ s.tickets 1 = 25 ∧
      inheritedBy (s.base.proc 1).pid s.history = some (s.tickets 1) := by
  have hrun : (runEvents TicketTable.step TicketTable.init forkTickets).holds fun s =>
      (s.base.proc 1).state = .runnable ∧ s.tickets 1 = 25 ∧
        lastSet (s.base.proc 1).pid s.history = none := ⟨rfl, rfl, rfl⟩
  obtain ⟨s, hs, hstate, htickets, hnone⟩ := Outcome.exists_of_holds hrun
  have hok : Along TicketTable.step TicketTable.unwrapped TicketTable.init forkTickets := by
    decide +kernel
  have hreach := Reach.of_runEvents .init _ hok hs
  have hchild := (tickets_inherited hreach).1 1 (by simp [hstate]) (by simp [hstate])
  exact ⟨s, hs, hstate, htickets, hchild.2.2 hnone⟩

end Xv6
