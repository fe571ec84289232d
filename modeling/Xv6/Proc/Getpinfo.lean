import Xv6.Proc.Tickets

/-!
# What `getpinfo` reports

`fillpstat` holds `ptable.lock`, so the occupant of a slot stays while its entry is written, and
only its own `settickets` can change what is copied.  The slots that `fork` has allocated and not
yet filled are the exception: they count as in use, with the tickets of an earlier occupant.
-/

namespace Xv6

/-- The step does not look at a slot whose tickets `fork` has yet to write, and the pid counter does
not wrap. -/
def TicketTable.awaits (s : TicketTable) : TicketStep → Prop
  | .proc e => s.base.unwrapped e
  | .fill => ∀ c ∈ s.scan, c.field = .inuse → (s.base.proc c.slot).state = .embryo →
      s.stage c.slot = .filled
  | _ => True

instance (s : TicketTable) : (e : TicketStep) → Decidable (s.awaits e)
  | .fill =>
    match h : s.scan with
    | some c => decidable_of_iff (c.field = .inuse → (s.base.proc c.slot).state = .embryo →
        s.stage c.slot = .filled) (by simp [TicketTable.awaits, h])
    | none => .isTrue (by simp [TicketTable.awaits, h])
  | .proc e => inferInstanceAs (Decidable (s.base.unwrapped e))
  | .gettickets _ | .resetTicks _ | .fillTickets _ | .settickets _ _ | .getpinfo _ =>
    .isTrue trivial

variable {s : TicketTable}

theorem TicketTable.awaits.unwrapped {e : TicketStep} (h : s.awaits e) :
    s.unwrapped e := by
  cases e with
  | proc e => exact h
  | _ => trivial

/-- The tickets of the occupant of slot `i` are written. -/
def TicketTable.inPlace (s : TicketTable) (i : Slot) : Prop :=
  (s.base.proc i).state.phase = .occupied ∨ s.stage i = .filled

/-- `pid` held `t` tickets at a moment between `since` and the history `h`. -/
def HeldSince (since h : List TicketEvent) (pid t : Int) : Prop :=
  10 ≤ t ∧ ∃ past, since <:+ past ∧ past <:+ h ∧ due pid past = some t

theorem HeldSince.mono {since h h' : List TicketEvent} {pid t : Int} (hh : h <:+ h')
    (hheld : HeldSince since h pid t) : HeldSince since h' pid t := by
  obtain ⟨hten, past, hsince, hpast, hdue⟩ := hheld
  exact ⟨hten, past, hsince, hpast.trans hh, hdue⟩

/-- The entries of the fields that `fillpstat` has `seen` so far are those of the occupants. -/
structure ScanInv (s : TicketTable) (table : Slot → Pstat) (since : List TicketEvent)
    (seen : Slot → PstatField → Prop) : Prop where
  past : since <:+ s.history
  inUse : ∀ i, seen i .inuse → (table i).inuse = true → s.inPlace i
  tickets : ∀ i, seen i .tickets → (table i).inuse = true →
    HeldSince since s.history (s.base.proc i).pid (table i).tickets
  ticks : ∀ i, seen i .ticks → (table i).ticks = 0
  pid : ∀ i, seen i .pid → (table i).inuse = true → (table i).pid = (s.base.proc i).pid

def PstatField.rank : PstatField → Nat
  | .inuse => 0
  | .tickets => 1
  | .ticks => 2
  | .pid => 3
  | .state => 4

def Scan.seen (c : Scan) (i : Slot) (f : PstatField) : Prop :=
  i < c.slot ∨ i = c.slot ∧ f.rank < c.field.rank

/-- What a report says of a slot in use is true of the process that has the slot. -/
def Report.Current (r : Report) (s : TicketTable) : Prop :=
  ∀ i, (r.table i).inuse = true → (s.base.proc i).state ≠ .unused ∧
    (r.table i).pid = (s.base.proc i).pid ∧ (r.table i).ticks = 0 ∧
    HeldSince r.since s.history (r.table i).pid (r.table i).tickets

/-- The step from `s` to `s'` is the last assignment of a call that reports `r`. -/
def Report.Finished (r : Report) (s s' : TicketTable) : Prop :=
  ∃ c, s.scan = some c ∧ s' = s.fill c ∧ s'.reports = r :: s.reports ∧ r.Current s

structure PinfoInv (s : TicketTable) : Prop where
  base : TicketInv s
  scan : ∀ c ∈ s.scan, ScanInv s c.table c.since c.seen

variable {i : Slot}

theorem TicketInv.held (h : TicketInv s) (hi : s.inPlace i) :
    10 ≤ s.tickets i ∧ due (s.base.proc i).pid s.history = some (s.tickets i) := by
  rcases hi with hi | hi
  · exact h.holds i hi
  · exact h.promised i _ (by simp [TicketTable.promise, hi])

theorem TicketInv.used (h : TicketInv s) (hi : s.inPlace i) : (s.base.proc i).state ≠ .unused := by
  intro hunused
  rcases hi with hi | hi
  · simp [hunused, ProcState.phase] at hi
  · simp [h.embryo (i := i) (by simp [hi])] at hunused

namespace ScanInv

variable {s s' : TicketTable} {table : Slot → Pstat} {since : List TicketEvent}
  {seen seen' : Slot → PstatField → Prop}

theorem mono (h : ScanInv s table since seen) (hseen : ∀ i f, seen' i f → seen i f) :
    ScanInv s table since seen' :=
  ⟨h.past, fun i hi => h.inUse i (hseen i _ hi), fun i hi => h.tickets i (hseen i _ hi),
    fun i hi => h.ticks i (hseen i _ hi), fun i hi => h.pid i (hseen i _ hi)⟩

theorem rescan (h : ScanInv s table since seen) (scan : Option Scan) (reports : List Report) :
    ScanInv { s with scan := scan, reports := reports } table since seen :=
  ⟨h.past, h.inUse, h.tickets, h.ticks, h.pid⟩

theorem keep (h : ScanInv s table since seen) (horder : ∀ i f, seen i f → seen i .inuse)
    (hhist : s.history <:+ s'.history)
    (hplace : ∀ i, s.inPlace i → s'.inPlace i ∧ (s'.base.proc i).pid = (s.base.proc i).pid) :
    ScanInv s' table since seen := by
  constructor
  case past => exact h.past.trans hhist
  case ticks => exact h.ticks
  case inUse =>
    intro i hi huse
    exact (hplace i (h.inUse i hi huse)).1
  case tickets =>
    intro i hi huse
    rw [(hplace i (h.inUse i (horder i _ hi) huse)).2]
    exact (h.tickets i hi huse).mono hhist
  case pid =>
    intro i hi huse
    rw [(hplace i (h.inUse i (horder i _ hi) huse)).2]
    exact h.pid i hi huse

end ScanInv

namespace TicketTable

variable (s : TicketTable) (c : Scan) (i : Slot)

theorem fillTable_inuse : (s.fillTable c i).inuse =
    if i = c.slot ∧ c.field = .inuse then decide ((s.base.proc i).state ≠ .unused)
    else (c.table i).inuse := by
  by_cases hi : i = c.slot <;> cases hf : c.field <;> simp [fillTable, fillField, hi, hf]

theorem fillTable_tickets : (s.fillTable c i).tickets =
    if i = c.slot ∧ c.field = .tickets then s.tickets i else (c.table i).tickets := by
  by_cases hi : i = c.slot <;> cases hf : c.field <;> simp [fillTable, fillField, hi, hf]

theorem fillTable_ticks : (s.fillTable c i).ticks =
    if i = c.slot ∧ c.field = .ticks then s.ticks i else (c.table i).ticks := by
  by_cases hi : i = c.slot <;> cases hf : c.field <;> simp [fillTable, fillField, hi, hf]

theorem fillTable_pid : (s.fillTable c i).pid =
    if i = c.slot ∧ c.field = .pid then (s.base.proc i).pid else (c.table i).pid := by
  by_cases hi : i = c.slot <;> cases hf : c.field <;> simp [fillTable, fillField, hi, hf]

end TicketTable

/-- Fields seen once the assignment that `c` stands at is done. -/
def Scan.seenNext (c : Scan) (i : Slot) (f : PstatField) : Prop :=
  i < c.slot ∨ i = c.slot ∧ f.rank ≤ c.field.rank

variable {f : PstatField} {c : Scan}

theorem Scan.seen_inuse (h : c.seen i f) :
    c.seen i .inuse := by
  rcases h with h | ⟨h, hlt⟩
  · exact .inl h
  · exact .inr ⟨h, (Nat.zero_le _).trans_lt hlt⟩

theorem Scan.seenNext_cases (h : c.seenNext i f) :
    c.seen i f ∨ i = c.slot ∧ c.field = f := by
  rcases h with h | ⟨h, hle⟩
  · exact .inl (.inl h)
  · rcases hle.lt_or_eq with hlt | heq
    · exact .inl (.inr ⟨h, hlt⟩)
    · refine .inr ⟨h, ?_⟩
      cases hc : c.field <;> cases f <;> simp_all [PstatField.rank]

theorem Scan.not_inuse (h : c.seenNext i f)
    (hf : f ≠ .inuse) : ¬ (i = c.slot ∧ c.field = .inuse) := by
  rintro ⟨hi, hc⟩
  rcases h with h | ⟨_, hle⟩
  · exact absurd hi h.ne
  · rw [hc] at hle
    cases f <;> simp_all [PstatField.rank]

theorem ScanInv.fillTable (h : ScanInv s c.table c.since c.seen) (hinv : TicketInv s)
    (hok : s.awaits .fill) (hc : s.scan = some c) :
    ScanInv s (s.fillTable c) c.since c.seenNext := by
  -- The later assignments of a slot leave `inuse` as the first one has set it.
  have hin {i : Slot} {f : PstatField} (hi : c.seenNext i f) (hf : f ≠ .inuse)
      (huse : (s.fillTable c i).inuse = true) : (c.table i).inuse = true ∧ s.inPlace i := by
    rw [s.fillTable_inuse, if_neg (Scan.not_inuse hi hf)] at huse
    refine ⟨huse, h.inUse i ?_ huse⟩
    rcases Scan.seenNext_cases hi with hi | ⟨rfl, hfield⟩
    · exact Scan.seen_inuse hi
    · refine .inr ⟨rfl, ?_⟩
      rw [hfield]
      cases f <;> simp_all [PstatField.rank]
  constructor
  case past => exact h.past
  case inUse =>
    intro i hi huse
    rw [s.fillTable_inuse] at huse
    split_ifs at huse with hnow
    · obtain ⟨rfl, hfield⟩ := hnow
      have hused : (s.base.proc c.slot).state ≠ .unused := by simpa using huse
      by_cases hembryo : (s.base.proc c.slot).state = .embryo
      · exact .inr (hok c hc hfield hembryo)
      · left
        cases hst : (s.base.proc c.slot).state <;> simp_all [ProcState.phase]
    · rcases Scan.seenNext_cases hi with hi | hi
      · exact h.inUse i hi huse
      · exact absurd hi hnow
  case tickets =>
    intro i hi huse
    obtain ⟨huse, hplace⟩ := hin hi (by simp) huse
    rw [s.fillTable_tickets]
    split_ifs with hnow
    · have hheld := hinv.held hplace
      exact ⟨hheld.1, s.history, h.past, List.suffix_rfl, hheld.2⟩
    · rcases Scan.seenNext_cases hi with hi | hi
      · exact h.tickets i hi huse
      · exact absurd hi hnow
  case ticks =>
    intro i hi
    rw [s.fillTable_ticks]
    split_ifs with hnow
    · exact hinv.ticks i
    · rcases Scan.seenNext_cases hi with hi | hi
      · exact h.ticks i hi
      · exact absurd hi hnow
  case pid =>
    intro i hi huse
    obtain ⟨huse, _⟩ := hin hi (by simp) huse
    rw [s.fillTable_pid]
    split_ifs with hnow
    · rfl
    · rcases Scan.seenNext_cases hi with hi | hi
      · exact h.pid i hi huse
      · exact absurd hi hnow

theorem PstatField.rank_next {f g : PstatField} (h : f.next = some g) : g.rank = f.rank + 1 := by
  cases f <;> cases h <;> rfl

theorem PstatField.rank_le_last (h : f.next = none) (g : PstatField) :
    g.rank ≤ f.rank := by
  cases f <;> cases h
  cases g <;> decide

namespace PinfoInv

variable {s s' : TicketTable}

theorem fill (h : PinfoInv s) (hok : s.awaits .fill) (hc : s.scan = some c) :
    PinfoInv (s.fill c) ∧ ∀ r ∈ (s.fill c).reports, r ∈ s.reports ∨ r.Finished s (s.fill c) := by
  have hinv := h.base.fill c
  have hscan := (h.scan c hc).fillTable h.base hok hc
  cases hnext : c.field.next with
  | some f =>
    simp only [TicketTable.fill, hnext] at hinv ⊢
    refine ⟨⟨hinv, ?_⟩, fun r hr => .inl hr⟩
    intro d hd
    cases hd
    apply (ScanInv.mono hscan ?_).rescan
    intro i g hg
    rcases hg with hlt | ⟨hi, hlt⟩
    · exact .inl hlt
    · rw [PstatField.rank_next hnext] at hlt
      exact .inr ⟨hi, Nat.lt_succ_iff.mp hlt⟩
  | none =>
    have hall (i : Slot) (g : PstatField) (hi : i ≤ c.slot) : c.seenNext i g :=
      hi.lt_or_eq.imp_right fun hi => ⟨hi, PstatField.rank_le_last hnext g⟩
    by_cases hslot : c.slot.val + 1 < NPROC
    · simp only [TicketTable.fill, hnext, dif_pos hslot] at hinv ⊢
      refine ⟨⟨hinv, ?_⟩, fun r hr => .inl hr⟩
      intro d hd
      cases hd
      apply (ScanInv.mono hscan ?_).rescan
      intro i g hg
      rcases hg with hlt | ⟨_, hlt⟩
      · exact hall i g (Nat.lt_succ_iff.mp hlt)
      · exact absurd hlt (Nat.not_lt_zero _)
    · have hdone : (s.fill c).reports = ⟨s.fillTable c, c.since⟩ :: s.reports := by
        simp only [TicketTable.fill, hnext, dif_neg hslot]
      refine ⟨⟨hinv, by simp [TicketTable.fill, hnext, hslot]⟩, ?_⟩
      intro r hr
      rw [hdone] at hr
      rcases List.mem_cons.mp hr with rfl | hr
      · refine .inr ⟨c, hc, rfl, hdone, ?_⟩
        intro i huse
        have hi : i ≤ c.slot := by
          have hlt := i.isLt
          exact Fin.le_def.mpr (by omega)
        have hpid := hscan.pid i (hall i _ hi) huse
        refine ⟨h.base.used (hscan.inUse i (hall i _ hi) huse), hpid, hscan.ticks i (hall i _ hi), ?_⟩
        rw [hpid]
        exact hscan.tickets i (hall i _ hi) huse
      · exact .inl hr

theorem keep (h : PinfoInv s) (hinv : TicketInv s') (hscan : s'.scan = s.scan)
    (hreports : s'.reports = s.reports) (hhist : s.history <:+ s'.history)
    (hplace : s.scan ≠ none → ∀ i, s.inPlace i →
      s'.inPlace i ∧ (s'.base.proc i).pid = (s.base.proc i).pid) :
    PinfoInv s' ∧ ∀ r ∈ s'.reports, r ∈ s.reports ∨ r.Finished s s' := by
  refine ⟨⟨hinv, fun c hc => ?_⟩, fun r hr => .inl (hreports ▸ hr)⟩
  rw [hscan] at hc
  exact (h.scan c hc).keep (fun i f => Scan.seen_inuse) hhist
    (hplace (by simp [Option.mem_def.mp hc]))

theorem proc_keep (h : PinfoInv s) {e : ProcEvent} {b : Ptable} (hok : s.base.unwrapped e)
    (hallows : s.allows e = true) (hscan : s.scan ≠ none) (hs : s.base.step e = .next b) (hi : s.inPlace i) :
    ((b.proc i).state.phase = .occupied ∨ s.stage i = .filled) ∧
      (b.proc i).pid = (s.base.proc i).pid := by
  have hlocked : e.unlocked ≠ none := by
    intro hnone
    simp_all [TicketTable.allows, TicketTable.lockFree]
  have hkeep (hphase : (b.proc i).state.phase = (s.base.proc i).state.phase) :
      (b.proc i).state.phase = .occupied ∨ s.stage i = .filled := by
    rw [hphase]
    exact hi
  cases Ptable.step_change hs i with
  | kept hk => exact ⟨hkeep hk.phase, hk.pid⟩
  | faulted he hpid hphase | killed p he hpc hpid hphase => exact ⟨hkeep hphase, hpid⟩
  | allocated p he hold hnew hpid hkilled | published p he hpc hnew hpid hkilled =>
    simp [he, ProcEvent.unlocked] at hlocked
  | reaped p he hold hnew hkilled => rcases he with he | he <;> simp [he, ProcEvent.unlocked] at hlocked
  | failed p he hpc hnew hkilled =>
    -- The slot is being filled, and its `fork` can no longer fail.
    exfalso
    have hembryo := h.base.life.forking p i hpc
    rcases hi with hi | hi
    · simp [hembryo, ProcState.phase] at hi
    · obtain ⟨q, hq⟩ := h.base.filling i (by simp [hi])
      have hq' := h.base.life.publishing_kept hs hq (by rcases he with he | he <;> simp [he])
      have hembryo' := (h.base.life.step hok hs).forking q i (by simp [hq', ProcPc.forking])
      simp [hembryo'] at hnew

theorem init : PinfoInv TicketTable.init :=
  ⟨TicketInv.init, by simp [TicketTable.init]⟩

theorem step (h : PinfoInv s) {e : TicketStep} (hok : s.awaits e) (hs : s.step e = .next s') :
    PinfoInv s' ∧ ∀ r ∈ s'.reports, r ∈ s.reports ∨ r.Finished s s' := by
  have hinv := h.base.step hok.unwrapped hs
  cases e with
  | proc e =>
    simp only [TicketTable.step] at hs
    split_ifs at hs with hallows
    unfold TicketTable.proc at hs
    split at hs
    · cases hs
    · cases hs
    · rename_i b hb
      split at hs
      · rename_i p
        have hfree : s.scan = none := by
          simpa [TicketTable.allows, ProcEvent.unlocked, TicketTable.lockFree] using hallows
        split at hs
        · split_ifs at hs
          cases hs
          exact h.keep hinv rfl rfl List.suffix_rfl fun hscan => absurd hfree hscan
        · cases hs
      · cases hs
        exact h.keep hinv rfl rfl List.suffix_rfl fun hscan i => h.proc_keep hok hallows hscan hb
  | gettickets p =>
    simp only [TicketTable.step] at hs
    split_ifs at hs with hfree
    obtain ⟨np, _, _, ht⟩ := TicketTable.forkStep_next hs
    cases hst : s.stage np <;> rw [hst] at ht <;> cases ht
    refine h.keep hinv rfl rfl (List.suffix_cons _ _) fun hscan => absurd ?_ hscan
    simpa [TicketTable.lockFree] using hfree
  | resetTicks p =>
    obtain ⟨np, _, _, ht⟩ := TicketTable.forkStep_next hs
    cases hst : s.stage np <;> rw [hst] at ht <;> cases ht
    refine h.keep hinv rfl rfl List.suffix_rfl fun _ i hi => ⟨hi.imp_right fun hi => ?_, rfl⟩
    have hin : i ≠ np := by
      rintro rfl
      simp [hst] at hi
    simpa [hin] using hi
  | fillTickets p =>
    obtain ⟨np, _, _, ht⟩ := TicketTable.forkStep_next hs
    cases hst : s.stage np <;> rw [hst] at ht <;> cases ht
    refine h.keep hinv rfl rfl List.suffix_rfl fun _ i hi => ⟨hi.imp_right fun hi => ?_, rfl⟩
    by_cases hin : i = np <;> simp [hin, hi]
  | settickets p n =>
    simp only [TicketTable.step] at hs
    split_ifs at hs
    cases hs
    unfold TicketTable.settickets at hinv ⊢
    split_ifs
    · exact ⟨h, fun r hr => .inl hr⟩
    · refine h.keep ?_ rfl rfl (List.suffix_cons _ _) fun _ i hi => ⟨hi, rfl⟩
      simpa [*] using hinv
  | getpinfo p =>
    simp only [TicketTable.step] at hs
    split_ifs at hs
    cases hs
    refine ⟨⟨hinv, ?_⟩, fun r hr => .inl hr⟩
    intro c hc
    cases hc
    have hnone (i : Slot) (f : PstatField) : ¬ (s.startScan p).seen i f := by
      rintro (hlt | ⟨_, hlt⟩)
      · exact absurd hlt (Nat.not_lt_zero _)
      · exact absurd hlt (Nat.not_lt_zero _)
    exact ⟨List.suffix_rfl, fun i hi => absurd hi (hnone i _), fun i hi => absurd hi (hnone i _),
      fun i hi => absurd hi (hnone i _), fun i hi => absurd hi (hnone i _)⟩
  | fill =>
    simp only [TicketTable.step] at hs
    split at hs <;> cases hs
    exact h.fill hok ‹_›

end PinfoInv

/-- In every run in which `fillpstat` meets no slot with tickets still to be written, the last assignment
of a call finds each slot that it reports in use to have the reported pid, and what else it reports
is the process's: its ticks, and the tickets that it held during the call. -/
theorem getpinfo_current {s : TicketTable}
    (h : Reach TicketTable.step TicketTable.awaits TicketTable.init s) :
    ∀ r ∈ s.reports, ∃ s₁ c, Reach TicketTable.step TicketTable.awaits TicketTable.init s₁ ∧
      s₁.scan = some c ∧ (s₁.fill c).reports = r :: s₁.reports ∧
      Reach TicketTable.step TicketTable.awaits (s₁.fill c) s ∧
      ∀ i, (r.table i).inuse = true →
        (s₁.base.proc i).state ≠ .unused ∧ (r.table i).pid = (s₁.base.proc i).pid ∧
        (r.table i).ticks = 0 ∧ 10 ≤ (r.table i).tickets ∧
        ∃ past, r.since <:+ past ∧ past <:+ s₁.history ∧
          due (r.table i).pid past = some (r.table i).tickets := by
  induction h with
  | init => simp [TicketTable.init]
  | step e hreach hok hs ih =>
    have hinv := hreach.invariant PinfoInv.init fun _ _ _ hi hok hs => (hi.step hok hs).1
    intro r hr
    rcases (hinv.step hok hs).2 r hr with hr | ⟨c, hc, rfl, hdone, hcurrent⟩
    · obtain ⟨s₁, c, h₁, hc, hdone, hlater, hcurrent⟩ := ih r hr
      exact ⟨s₁, c, h₁, hc, hdone, .step e hlater hok hs, hcurrent⟩
    · exact ⟨_, c, hreach, hc, hdone, .init, hcurrent⟩

/-- Init calls `getpinfo` alone. -/
def initPinfo : List TicketStep :=
  [.proc (.dispatch 0), .settickets 0 25, .getpinfo 0] ++ List.replicate (NPROC * 5) .fill

theorem getpinfo_current_init :
    ∃ s : TicketTable, runEvents TicketTable.step TicketTable.init initPinfo = .next s ∧
      ∃ r ∈ s.reports, (r.table 0).inuse = true ∧ (r.table 0).pid = 1 ∧
        10 ≤ (r.table 0).tickets := by
  have hrun : (runEvents TicketTable.step TicketTable.init initPinfo).holds fun s =>
      ∃ r ∈ s.reports, (r.table 0).inuse = true ∧ (r.table 0).pid = 1 := by
    decide +kernel
  have hok : Along TicketTable.step TicketTable.awaits TicketTable.init initPinfo := by
    decide +kernel
  obtain ⟨s, hs, r, hr, huse, hpid⟩ := Outcome.exists_of_holds hrun
  have hreach := Reach.of_runEvents .init _ hok hs
  obtain ⟨s₁, c, -, -, -, -, hcurrent⟩ := getpinfo_current hreach r hr
  exact ⟨s, hs, r, hr, huse, hpid, (hcurrent 0 huse).2.2.2.1⟩

/-- The child in slot 1 calls `getpinfo` while init is in its second `fork`: slot 2 is in use as
pid 3, with tickets that were never set. -/
theorem getpinfo_unset : ∃ s : TicketTable, runEvents TicketTable.step TicketTable.init
        (forkTickets ++ [.proc (.dispatch 1), .proc (.call 0 .fork), .proc (.allocproc 0),
          .getpinfo 1] ++ List.replicate (NPROC * 5) .fill) = .next s ∧
      ∃ r ∈ s.reports, (r.table 2).inuse = true ∧ (r.table 2).pid = 3 ∧
        (r.table 2).tickets = 0 := by
  apply Outcome.exists_of_holds (Q := fun s : TicketTable =>
    ∃ r ∈ s.reports, (r.table 2).inuse = true ∧ (r.table 2).pid = 3 ∧ (r.table 2).tickets = 0)
  decide +kernel

end Xv6
