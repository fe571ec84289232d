import Mathlib.Tactic.Ring
import Xv6.Lib.Loop
import Xv6.Lib.Run

/-!
# `malloc` and `free`

The allocator of `umalloc.c` over a memory of headers, by address.  Free blocks are linked into a ring
through `base`, and `freep` is some place in it.  Loops count their rounds, so that the functions are
total; `none` means that a loop has not ended in time.  `sbrk` is given by the answers it will make.
-/

namespace Xv6

/-- `sizeof(Header)` -/
abbrev HEADER : Nat := 8

/-- `union header` -/
structure Header where
  ptr : Nat
  size : Nat

structure Heap where
  mem : Nat → Header
  freep : Nat
  /-- The end of the memory that `sbrk` has given out -/
  brk : Nat
  /-- History: what `sbrk` has returned, with the number of bytes it has added there -/
  obtained : List (Nat × Nat)

namespace Heap

/-- `p + n` for a pointer to headers -/
def advance (p n : Nat) : Nat := (p + n * HEADER) % 2 ^ 32

variable (h : Heap)

/-- `p->s.ptr` -/
def ptr (p : Nat) : Nat := (h.mem p).ptr

/-- `p->s.size` -/
def size (p : Nat) : Nat := (h.mem p).size

def setPtr (p q : Nat) : Heap :=
  { h with mem := Function.update h.mem p { h.mem p with ptr := q } }

def setSize (p n : Nat) : Heap :=
  { h with mem := Function.update h.mem p { h.mem p with size := n } }

/-- Where the loop of `free` ends -/
def fits (bp p : Nat) : Bool :=
  bp > p && bp < h.ptr p || p ≥ h.ptr p && (bp > p || bp < h.ptr p)

/-- `bp` is joined to the block after it, or linked to that. -/
def joinUpper (bp p : Nat) : Heap :=
  if advance bp (h.size bp) = h.ptr p then
    let h' := h.setSize bp ((h.size bp + h.size (h.ptr p)) % 2 ^ 32)
    h'.setPtr bp (h'.ptr (h'.ptr p))
  else h.setPtr bp (h.ptr p)

/-- The block `p` before `bp` is joined to it, or linked to it. -/
def joinLower (bp p : Nat) : Heap :=
  if advance p (h.size p) = bp then
    let h' := h.setSize p ((h.size p + h.size bp) % 2 ^ 32)
    h'.setPtr p (h'.ptr bp)
  else h.setPtr p bp

def free (rounds ap : Nat) : Option Heap :=
  let bp := ap - HEADER
  (search h.ptr (h.fits bp) rounds h.freep).map fun p =>
    { (h.joinUpper bp p).joinLower bp p with freep := p }

/-- The argument of `sbrk` in `morecore`, which is an `int` -/
def sbrkArg (nu : Nat) : Int :=
  let n : Nat := nu * HEADER % 2 ^ 32
  if n < 2 ^ 31 then n else (n : Int) - 2 ^ 32

/-- The end of the memory when `sbrk(n)` has returned `p`; `growproc` does not take away more than there is. -/
def sbrkEnd (p : Nat) (n : Int) : Nat := if p + n < 0 then p else (p + n).toNat

/-- `sbrk` has returned `p`, and what is there becomes a block. -/
def grow (p nu : Nat) : Heap :=
  { h.setSize p nu with
    brk := sbrkEnd p (sbrkArg nu)
    obtained := h.obtained ++ [(p, (sbrkArg nu).toNat)] }

/-- `morecore(nu)`, with the pointer it returns and the answers that are left -/
def morecore (rounds nu : Nat) : List (Option Nat) → Option (Nat × Heap × List (Option Nat))
  | some p :: answers =>
    let nu := if nu < 4096 then 4096 else nu
    ((h.grow p nu).free rounds (p + HEADER)).map fun h' => (h'.freep, h', answers)
  | none :: answers => some (0, h, answers)
  | [] => some (0, h, [])

/-- `nunits` are taken from the block `p`, which comes after `prevp`. -/
def take (nunits prevp p : Nat) : Nat × Heap :=
  if h.size p = nunits then
    (p + HEADER, { h.setPtr prevp (h.ptr p) with freep := prevp })
  else
    let h := h.setSize p (h.size p - nunits)
    let p := advance p (h.size p)
    (p + HEADER, { h.setSize p nunits with freep := prevp })

/-- The loop of `malloc` -/
def mallocFrom (rounds nunits : Nat) :
    Nat → Heap → (prevp p : Nat) → List (Option Nat) → Option (Nat × Heap)
  | 0, _, _, _, _ => none
  | n + 1, h, prevp, p, answers =>
    if h.size p ≥ nunits then some (h.take nunits prevp p)
    else if p = h.freep then
      match h.morecore rounds nunits answers with
      | none => none
      | some (p', h', answers') =>
        if p' = 0 then some (0, h') else mallocFrom rounds nunits n h' p' (h'.ptr p') answers'
    else mallocFrom rounds nunits n h p (h.ptr p) answers

def units (nbytes : Nat) : Nat := (nbytes + HEADER - 1) % 2 ^ 32 / HEADER + 1

/-- The ring at the first call -/
def start (base : Nat) : Heap :=
  if h.freep = 0 then { (h.setPtr base base).setSize base 0 with freep := base } else h

def malloc (base rounds nbytes : Nat) (answers : List (Option Nat)) : Option (Nat × Heap) :=
  let h := h.start base
  mallocFrom rounds (units nbytes) rounds h h.freep (h.ptr h.freep) answers

end Heap

structure Umalloc where
  heap : Heap
  /-- The pointers that `malloc` has returned and that were not freed since -/
  live : List Nat

namespace Umalloc

inductive Event where
  | malloc (nbytes : Nat) (answers : List (Option Nat))
  | free (ap : Nat)
  /-- The program writes to a block of its own. -/
  | write (p : Nat) (x : Header)

inductive Panic where
  /-- A loop does not end. -/
  | hang

variable (base : Nat) (s : Umalloc)

/-- Enough rounds: the memory has no more free blocks than units, and may grow once. -/
def rounds : Nat := 2 * (s.heap.obtained.map Prod.snd).sum + 3

def step : Event → Outcome Panic Umalloc
  | .malloc nbytes answers =>
    match s.heap.malloc base s.rounds nbytes answers with
    | none => .panic .hang
    | some (ap, heap) => .next ⟨heap, if ap = 0 then s.live else s.live ++ [ap]⟩
  | .free ap =>
    match s.heap.free s.rounds ap with
    | none => .panic .hang
    | some heap => .next ⟨heap, s.live.erase ap⟩
  | .write p x => .next { s with heap.mem := Function.update s.heap.mem p x }

theorem step_malloc (nbytes : Nat) (answers : List (Option Nat)) :
    s.step base (.malloc nbytes answers) =
      match s.heap.malloc base s.rounds nbytes answers with
      | none => .panic .hang
      | some (ap, heap) => .next ⟨heap, if ap = 0 then s.live else s.live ++ [ap]⟩ := by
  delta step
  dsimp only

theorem step_free (ap : Nat) :
    s.step base (.free ap) =
      match s.heap.free s.rounds ap with
      | none => .panic .hang
      | some heap => .next ⟨heap, s.live.erase ap⟩ := by
  delta step
  dsimp only

/-- The program begins with an empty heap above `base`. -/
def init (mem : Nat → Header) (brk : Nat) : Umalloc := ⟨⟨mem, 0, brk, []⟩, []⟩

end Umalloc

end Xv6
