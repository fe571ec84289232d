import Mathlib.Tactic.Ring
import Xv6.Lib.Run

/-!
# Console input

`consoleintr` and `consoleread` of `console.c`.  What runs under `cons.lock` is one step: a whole
call of `consoleintr`, and of `consoleread` the part up to its return or to its next `sleep`.  The
indexes are unsigned 32-bit numbers.  A waiting reader may be woken at any time, and it may have
been killed.
-/

namespace Xv6.Console

abbrev INPUT_BUF : Nat := 128

/-- The byte of an ASCII character. -/
def ascii (c : Char) : UInt8 := c.toNat.toUInt8

/-- `C(x)`: control-x. -/
def ctrl (c : Char) : UInt8 := ascii c - ascii '@'

/-- `x + 1`, unsigned -/
def inc (x : Nat) : Nat := (x + 1) % 2 ^ 32

/-- `x - 1`, unsigned -/
def dec (x : Nat) : Nat := (x + (2 ^ 32 - 1)) % 2 ^ 32

/-- `x - y`, unsigned -/
def sub (x y : Nat) : Nat := (x + (2 ^ 32 - y)) % 2 ^ 32

structure Input where
  buf : Nat → UInt8
  /-- Read index -/
  r : Nat
  /-- Write index -/
  w : Nat
  /-- Edit index -/
  e : Nat

namespace Input

variable (s : Input)

/-- The loop of `^U`; it goes round at most `e - w` times. -/
def killLine : Nat → Input → Input
  | 0, s => s
  | k + 1, s =>
    if s.e ≠ s.w ∧ s.buf (dec s.e % INPUT_BUF) ≠ ascii '\n' then killLine k { s with e := dec s.e }
    else s

/-- `input.buf[input.e++ % INPUT_BUF] = c`, and the commit that may follow. -/
def put (c : UInt8) : Input :=
  let s' := { s with buf := Function.update s.buf (s.e % INPUT_BUF) c, e := inc s.e }
  if c = ascii '\n' ∨ c = ctrl 'D' ∨ s'.e = (s'.r + INPUT_BUF) % 2 ^ 32 then { s' with w := s'.e }
  else s'

/-- The `switch` of `consoleintr`. -/
def key (c : UInt8) : Input :=
  if c = ctrl 'P' then s
  else if c = ctrl 'U' then killLine (sub s.e s.w) s
  else if c = ctrl 'H' ∨ c = 0x7f then
    if s.e ≠ s.w then { s with e := dec s.e } else s
  else if c ≠ 0 ∧ sub s.e s.r < INPUT_BUF then s.put (if c = ascii '\r' then ascii '\n' else c)
  else s

/-- The committed bytes that nobody has read. -/
def unread : List UInt8 :=
  (List.range (sub s.w s.r)).map fun i => s.buf ((s.r + i) % 2 ^ 32 % INPUT_BUF)

end Input

/-- How a section of `consoleread` ends: at a `return`, or with nothing to read. -/
inductive Stop where
  | returned
  | empty
  deriving DecidableEq

/-- A call of `consoleread`: what is left of its count, the count, the bytes copied out. -/
structure Reading where
  n : Nat
  target : Nat
  dst : List UInt8

structure Section where
  stop : Stop
  n : Nat
  dst : List UInt8
  /-- The bytes taken out of the buffer -/
  took : List UInt8
  input : Input

/-- The loop of `consoleread`. -/
def readLoop (target : Nat) : Nat → List UInt8 → List UInt8 → Input → Section
  | 0, dst, took, s => ⟨.returned, 0, dst, took, s⟩
  | n + 1, dst, took, s =>
    if s.r = s.w then ⟨.empty, n + 1, dst, took, s⟩
    else
      let c := s.buf (s.r % INPUT_BUF)
      let s' := { s with r := inc s.r }
      if c = ctrl 'D' then
        if n + 1 < target then ⟨.returned, n + 1, dst, took, { s' with r := dec s'.r }⟩
        else ⟨.returned, n + 1, dst, took ++ [c], s'⟩
      else if c = ascii '\n' then ⟨.returned, n, dst ++ [c], took ++ [c], s'⟩
      else readLoop target n (dst ++ [c]) (took ++ [c]) s'

/-- History: the keys, and the bytes that readers took. -/
inductive Act where
  | key (c : UInt8)
  | take (c : UInt8)
  deriving DecidableEq

/-- What a call returned: its value, and the bytes copied out. -/
structure Result where
  value : Int
  dst : List UInt8
  deriving DecidableEq

end Console

/-- The console and the processes `P` that read from it. -/
structure Console (P : Type) where
  input : Console.Input
  reading : P → Option Console.Reading
  history : List Console.Act
  results : List (P × Console.Result)

namespace Console

variable {P : Type} [DecidableEq P]

inductive Event (P : Type) where
  /-- `consoleintr` with the keys that `getc` returns -/
  | intr (keys : List UInt8)
  /-- `consoleread(ip, dst, n)` -/
  | read (p : P) (n : Int) (killed : Bool)
  /-- A reader comes back from `sleep`. -/
  | resume (p : P) (killed : Bool)

def finish (s : Console P) (p : P) (x : Result) : Console P :=
  { s with reading := Function.update s.reading p none, results := (p, x) :: s.results }

/-- `consoleread` from `acquire` or `sleep` to `sleep` or `return`. -/
def run (s : Console P) (p : P) (killed : Bool) (x : Reading) : Console P :=
  let q := readLoop x.target x.n x.dst [] s.input
  let s' := { s with input := q.input, history := s.history ++ q.took.map Act.take }
  match q.stop with
  | .returned => s'.finish p ⟨(x.target : Int) - q.n, q.dst⟩
  | .empty =>
    if killed then s'.finish p ⟨-1, q.dst⟩
    else { s' with reading := Function.update s.reading p (some ⟨q.n, x.target, q.dst⟩) }

def step (s : Console P) : Event P → Outcome Empty (Console P)
  | .intr keys =>
    .next { s with input := keys.foldl Input.key s.input, history := s.history ++ keys.map Act.key }
  | .read p n killed =>
    if s.reading p = none then .next (s.run p killed ⟨n.toNat, n.toNat, []⟩) else .blocked
  | .resume p killed =>
    match s.reading p with
    | some x => .next (s.run p killed x)
    | none => .blocked

def init : Console P where
  input := { buf := fun _ => 0, r := 0, w := 0, e := 0 }
  reading _ := none
  history := []
  results := []

/-- The committed output, the line being edited, and how much of the output has been taken. -/
structure Editor where
  committed : List UInt8
  pending : List UInt8
  taken : Nat

namespace Editor

variable (ed : Editor)

/-- Bytes that are committed but not taken, or being edited. -/
def held : Nat := ed.committed.length + ed.pending.length - ed.taken

def commit : Editor := { ed with committed := ed.committed ++ ed.pending, pending := [] }

def append (c : UInt8) : Editor :=
  let ed' := { ed with pending := ed.pending ++ [c] }
  if c = ascii '\n' ∨ c = ctrl 'D' ∨ ed'.held = INPUT_BUF then ed'.commit else ed'

def key (c : UInt8) : Editor :=
  if c = 0 ∨ c = ctrl 'P' then ed
  else if c = ctrl 'U' then { ed with pending := [] }
  else if c = ctrl 'H' ∨ c = 0x7f then { ed with pending := ed.pending.dropLast }
  else if ed.held = INPUT_BUF then ed
  else ed.append (if c = ascii '\r' then ascii '\n' else c)

def act : Act → Editor
  | .key c => ed.key c
  | .take _ => { ed with taken := ed.taken + 1 }

end Editor

/-- The editor after a history. -/
def edited (history : List Act) : Editor := history.foldl Editor.act ⟨[], [], 0⟩

/-- The bytes that readers have consumed in a history. -/
def takes (history : List Act) : List UInt8 :=
  history.filterMap fun
    | .take c => some c
    | .key _ => none

end Xv6.Console
