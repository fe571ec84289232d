import Xv6.Console.State
import Xv6.Pipe.State

/-!
# Kills and the killable waits

`piperead`, `pipewrite`, `consoleread` and `sys_sleep` test `killed` before each `sleep`.  Here are the
latter two, together with the interrupts that end their waits, and what holds of all four.
-/

namespace Xv6.KilledWait

open Console (Input readLoop)
open Sleep (Act Pc Sys Locked)

structure Data where
  input : Input
  /-- `ticks`, an unsigned 32-bit number -/
  ticks : Nat

inductive Lock where
  | cons
  | ticks
  deriving DecidableEq

inductive Chan where
  /-- `&input.r` -/
  | input
  | ticks
  deriving DecidableEq

inductive Point where
  | idle
  /-- `consoleread`: `acquire`, the loop up to its end or to an empty buffer, the test of `killed`,
  `sleep`, and `release` -/
  | readAcquire (n : Int)
  | read (target n : Nat) (dst : List UInt8)
  | readKilled (target n : Nat) (dst : List UInt8)
  | readSleep (target n : Nat) (dst : List UInt8)
  | readReturn (r : Int) (dst : List UInt8)
  /-- `consoleintr`, with the keys that are left -/
  | intrAcquire (keys : List UInt8)
  | intrKey (keys : List UInt8)
  | intrWakeup (keys : List UInt8)
  | intrRelease
  /-- `sys_sleep`: `acquire`, `ticks0 = ticks`, the test of the loop, the test of `killed`, `sleep`,
  and `release` -/
  | sleepAcquire (n : Int)
  | sleepStart (n : Int)
  | sleepTest (n : Int) (ticks0 : Nat)
  | sleepKilled (n : Int) (ticks0 : Nat)
  | sleepSleep (n : Int) (ticks0 : Nat)
  | sleepReturn (r : Int)
  /-- The timer interrupt -/
  | clockAcquire
  | clockTick
  | clockWakeup
  | clockRelease
  deriving DecidableEq

/-- The key makes `consoleintr` commit the line and call `wakeup`. -/
def commits (s : Input) (c : UInt8) : Bool :=
  let c' := if c = Console.ascii '\r' then Console.ascii '\n' else c
  c ≠ Console.ctrl 'P' ∧ c ≠ Console.ctrl 'U' ∧ c ≠ Console.ctrl 'H' ∧ c ≠ 0x7f ∧ c ≠ 0 ∧
    Console.sub s.e s.r < Console.INPUT_BUF ∧
    (c' = Console.ascii '\n' ∨ c' = Console.ctrl 'D' ∨
      Console.inc s.e = (s.r + Console.INPUT_BUF) % 2 ^ 32)

/-- The loop of `consoleread`, up to its end or to an empty buffer -/
def readSection (target n : Nat) (dst : List UInt8) (d : Data) : Data × Point :=
  let q := readLoop target n dst [] d.input
  ({ d with input := q.input },
    match q.stop with
    | .returned => .readReturn ((target : Int) - q.n) q.dst
    | .empty => .readKilled target q.n q.dst)

/-- One round of the loop of `consoleintr` -/
def intrKey (d : Data) : List UInt8 → Data × Point
  | [] => (d, .intrRelease)
  | c :: keys =>
    ({ d with input := d.input.key c },
      if commits d.input c then .intrWakeup keys else .intrKey keys)

def code {P : Type} (_ : P) : Point → Act Point Lock Chan Data
  | .idle => .choose fun
      | .readAcquire _ | .intrAcquire _ | .sleepAcquire _ | .clockAcquire => true
      | _ => false
  | .readAcquire n => .acquire .cons (.read n.toNat n.toNat [])
  | .read target n dst => .data (readSection target n dst)
  | .readKilled target n dst => .killed (.readReturn (-1) dst) (.readSleep target n dst)
  | .readSleep target n dst => .sleep .input .cons (.read target n dst)
  | .readReturn _ _ => .release .cons .idle
  | .intrAcquire keys => .acquire .cons (.intrKey keys)
  | .intrKey keys => .data fun d => intrKey d keys
  | .intrWakeup keys => .wakeup .input (.intrKey keys)
  | .intrRelease => .release .cons .idle
  | .sleepAcquire n => .acquire .ticks (.sleepStart n)
  | .sleepStart n => .data fun d => (d, .sleepTest n d.ticks)
  | .sleepTest n ticks0 => .data fun d =>
    -- `ticks - ticks0 < n` compares unsigned numbers.
    (d, if Console.sub d.ticks ticks0 < (n % 2 ^ 32).toNat then .sleepKilled n ticks0
        else .sleepReturn 0)
  | .sleepKilled n ticks0 => .killed (.sleepReturn (-1)) (.sleepSleep n ticks0)
  | .sleepSleep n ticks0 => .sleep .ticks .ticks (.sleepTest n ticks0)
  | .sleepReturn _ => .release .ticks .idle
  | .clockAcquire => .acquire .ticks .clockTick
  | .clockTick => .data fun d => ({ d with ticks := Console.inc d.ticks }, .clockWakeup)
  | .clockWakeup => .wakeup .ticks .clockRelease
  | .clockRelease => .release .ticks .idle

def init {P : Type} (d : Data) : Sys P Point Lock Chan Data where
  data := d
  lock _ := none
  ptlock := none
  thread _ := ⟨.code .idle, false, false⟩

namespace Point

def holds : Point → Option Lock
  | .read _ _ _ | .readKilled _ _ _ | .readSleep _ _ _ | .readReturn _ _ | .intrKey _
  | .intrWakeup _ | .intrRelease => some .cons
  | .sleepStart _ | .sleepTest _ _ | .sleepKilled _ _ | .sleepSleep _ _ | .sleepReturn _ | .clockTick
  | .clockWakeup | .clockRelease => some .ticks
  | .idle | .readAcquire _ | .intrAcquire _ | .sleepAcquire _ | .clockAcquire => none

/-- After the test of `killed` and before `sleep` -/
def deaf : Point → Bool
  | .readSleep _ _ _ | .sleepSleep _ _ => true
  | _ => false

end Point

variable {P : Type}

theorem code_keeps (p : P) (k : Point) : (code p k).keeps Point.holds k := by
  cases k with
  | idle =>
    intro k' hk
    cases k' with
    | readAcquire n => rfl
    | intrAcquire keys => rfl
    | sleepAcquire n => rfl
    | clockAcquire => rfl
    | _ => cases hk
  | read target n dst =>
    intro d
    rw [readSection]
    dsimp only
    split <;> rfl
  | intrKey keys =>
    intro d
    cases keys with
    | nil => rfl
    | cons c keys =>
      dsimp only [intrKey]
      split <;> rfl
  | sleepTest n ticks0 =>
    intro d
    dsimp only
    split <;> rfl
  | sleepStart n | clockTick => exact fun _ => rfl
  | intrWakeup keys => exact rfl
  | clockWakeup => exact rfl
  | _ => exact ⟨rfl, rfl⟩

theorem code_heeds (p : P) (k : Point) : (code p k).heeds Point.deaf k := by
  cases k with
  | idle =>
    intro k' hk
    cases k' with
    | readAcquire n => rfl
    | intrAcquire keys => rfl
    | sleepAcquire n => rfl
    | clockAcquire => rfl
    | _ => cases hk
  | read target n dst =>
    intro d
    rw [readSection]
    dsimp only
    split <;> rfl
  | intrKey keys =>
    intro d
    cases keys with
    | nil => rfl
    | cons c keys =>
      dsimp only [intrKey]
      split <;> rfl
  | sleepTest n ticks0 =>
    intro d
    dsimp only
    split <;> rfl
  | sleepStart n | clockTick => exact fun _ => rfl
  | readSleep target n dst | sleepSleep n ticks0 => exact ⟨rfl, rfl⟩
  | intrWakeup keys => exact nofun
  | clockWakeup => exact nofun
  | _ => exact rfl

theorem locked_init (d : Data) :
    Locked code Point.holds (init d : Sys P Point Lock Chan Data) where
  lock _ _ := by simp [init, Pc.holds, Point.holds]
  ptlock _ _ := by simp [init, Pc.holdsTable]
  called _ := trivial

section

variable {K L C D : Type} [DecidableEq P] [DecidableEq L] [DecidableEq C] {code : P → K → Act K L C D}
  {holds : K → Option L} {deaf : K → Bool} {s₀ s : Sys P K L C D}

theorem heard_of_reach (hkeeps : ∀ p k, (code p k).keeps holds k)
    (hheeds : ∀ p k, (code p k).heeds deaf k) (hinit : Locked code holds s₀)
    (hnone : ∀ p, (s₀.thread p).killed = false)
    (h : Reach (Sys.step code) (Sys.spares deaf) s₀ s) : s.Heard deaf := by
  have hinv : Locked code holds s ∧ s.Heard deaf :=
    h.invariant (I := fun s => Locked code holds s ∧ s.Heard deaf)
      ⟨hinit, fun p hp => nomatch (hnone p).symm.trans hp⟩
      fun _ _ _ hi hok hs => ⟨hi.1.step hkeeps hs, hi.2.step hheeds hi.1.called hok hs⟩
  exact hinv.2

end

/-- In every run in which `kill` never comes between the test of `killed` and the state change of
its victim, nobody who has been killed sleeps in one of the four loops. -/
theorem kill_not_lost [DecidableEq P] :
    (∀ (p₀ : P) (data : Nat → UInt8) (s : Pipe.Sys P),
      Reach Pipe.Sys.step (Sys.spares Pipe.Point.deaf) (Pipe.Sys.init p₀ data) s →
      ∀ p, (s.thread p).killed = true → (s.thread p).sleeping = false) ∧
    ∀ (d : Data) (s : Sys P Point Lock Chan Data),
      Reach (Sys.step code) (Sys.spares Point.deaf) (init d) s →
      ∀ p c, (s.thread p).killed = true → (s.thread p).sleepsOn c = false := by
  constructor
  · intro p₀ data s h p hkilled
    exact (heard_of_reach Pipe.code_keeps Pipe.code_heeds (Pipe.locked_init p₀ data)
      (fun _ => rfl) h p hkilled).1
  · intro d s h p c hkilled
    have hheard := heard_of_reach code_keeps code_heeds (locked_init d) (fun _ => rfl) h
    rw [Sleep.Thread.sleepsOn, (hheard p hkilled).1, Bool.false_and]

/-- Before `kill`: a process sleeps in `sys_sleep(10)` -/
def asleep : List (Sleep.Event Bool Point) :=
  .go true (.sleepAcquire 10) :: List.replicate 8 (.run true)

/-- The sleeper is woken by `kill`. -/
theorem kill_not_lost_sleep : ∃ s : Sys Bool Point Lock Chan Data,
    runEvents (Sys.step code) (init ⟨⟨fun _ => 0, 0, 0, 0⟩, 0⟩) (asleep ++ [.kill true]) = .next s ∧
    (s.thread true).killed = true ∧ (s.thread true).sleepsOn .ticks = false := by
  obtain ⟨s, hrun, hkilled⟩ := Outcome.exists_of_holds
    (r := runEvents (Sys.step code) (init ⟨⟨fun _ => 0, 0, 0, 0⟩, 0⟩) (asleep ++ [.kill true]))
    (Q := fun s => (s.thread true).killed = true) (by decide +kernel)
  have hspares : Along (Sys.step code) (Sys.spares Point.deaf) (init ⟨⟨fun _ => 0, 0, 0, 0⟩, 0⟩)
      (asleep ++ [.kill true]) := by decide +kernel
  exact ⟨s, hrun, hkilled, kill_not_lost.2 _ s (Reach.of_runEvents .init _ hspares hrun) true _ hkilled⟩

/-- In each of the four loops, `kill` comes right after the test of `killed`, and the process goes
to sleep. -/
theorem kill_lost : (∃ s : Pipe.Sys (Fin 2), runEvents Pipe.Sys.step (Pipe.Sys.init 0 fun _ => 0)
        (.go 0 (.readTrap 1) :: List.replicate 5 (.run 0) ++ .kill 0 :: List.replicate 4 (.run 0)) =
          .next s ∧
      (s.thread 0).killed = true ∧ (s.thread 0).sleepsOn false = true) ∧
    (∃ s : Pipe.Sys (Fin 2), runEvents Pipe.Sys.step (Pipe.Sys.init 0 fun _ => 0)
        (.go 0 (.writeTrap (List.replicate 513 0)) :: List.replicate 518 (.run 0) ++
          .kill 0 :: List.replicate 5 (.run 0)) = .next s ∧
      (s.thread 0).killed = true ∧ (s.thread 0).sleepsOn true = true) ∧
    (∃ s : Sys Bool Point Lock Chan Data,
      runEvents (Sys.step code) (init ⟨⟨fun _ => 0, 0, 0, 0⟩, 0⟩)
        (.go true (.readAcquire 1) :: List.replicate 3 (.run true) ++
          .kill true :: List.replicate 4 (.run true)) = .next s ∧
      (s.thread true).killed = true ∧ (s.thread true).sleepsOn .input = true) ∧
    ∃ s : Sys Bool Point Lock Chan Data,
      runEvents (Sys.step code) (init ⟨⟨fun _ => 0, 0, 0, 0⟩, 0⟩)
        (.go true (.sleepAcquire 10) :: List.replicate 4 (.run true) ++
          .kill true :: List.replicate 4 (.run true)) = .next s ∧
      (s.thread true).killed = true ∧ (s.thread true).sleepsOn .ticks = true := by
  refine ⟨?_, ?_, ?_, ?_⟩
  · apply Outcome.exists_of_holds (Q := fun s : Pipe.Sys (Fin 2) =>
      (s.thread 0).killed = true ∧ (s.thread 0).sleepsOn false = true)
    decide +kernel
  · apply Outcome.exists_of_holds (Q := fun s : Pipe.Sys (Fin 2) =>
      (s.thread 0).killed = true ∧ (s.thread 0).sleepsOn true = true)
    decide +kernel
  · apply Outcome.exists_of_holds (Q := fun s : Sys Bool Point Lock Chan Data =>
      (s.thread true).killed = true ∧ (s.thread true).sleepsOn .input = true)
    decide +kernel
  · apply Outcome.exists_of_holds (Q := fun s : Sys Bool Point Lock Chan Data =>
      (s.thread true).killed = true ∧ (s.thread true).sleepsOn .ticks = true)
    decide +kernel

end Xv6.KilledWait
