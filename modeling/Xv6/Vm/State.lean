import Xv6.Lib.Bytes
import Xv6.Lib.Wp
import Xv6.Vm.Layout

/-!
# Page tables and the page allocator

`kalloc.c` and the functions of `vm.c` that build, copy and free address spaces.  The kernel reaches
a page of physical memory at `P2V` of its address, so a pointer to a page is the frame, and one to an
entry is the frame of the table with an index.
-/

namespace Xv6

namespace Vm

/-- What stops the kernel: a panic, a null pointer, or a loop that does not end -/
inductive Stop where
  | kfree
  | remap
  | phystopTooHigh
  | copyuvmPte
  | copyuvmPage
  | nullPte
  | loops
  deriving DecidableEq

/-- A page full of one byte -/
def page (c : UInt8) : Bytes PGSIZE := fun _ => c

structure Phys where
  mem : Nat → Bytes PGSIZE
  /-- `kmem.freelist` -/
  free : List Nat
  /-- Which of the coming calls of `kalloc` find no page; pages come and go on other processors -/
  denied : Nat → Bool

abbrev VmM (α : Type) := Run Stop Phys α

namespace Phys

variable (s : Phys)

def setPage (f : Nat) (b : Bytes PGSIZE) : Phys := { s with mem := Function.update s.mem f b }

def setWord (f k v : Nat) : Phys := s.setPage f ((s.mem f).putWord k v)

/-- A call of `kalloc` has been made. -/
def tick : Phys := { s with denied := fun n => s.denied (n + 1) }

/-- The call has taken a page. -/
def take (rest : List Nat) : Phys := { s.tick with free := rest }

/-- A page is put back. -/
def give (f : Nat) : Phys := { s.setPage f (page 1) with free := f :: s.free }

end Phys

def readWord (f k : Nat) : VmM Nat := do
  let s ← get
  return (s.mem f).word k

def writeWord (f k v : Nat) : VmM Unit := modify fun s => s.setWord f k v

/-- `memset` of a whole page -/
def memset (f : Nat) (c : UInt8) : VmM Unit := modify fun s => s.setPage f (page c)

def kalloc : VmM (Option Nat) := do
  let s ← get
  match s.free with
  | [] =>
    set s.tick
    return none
  | f :: rest =>
    if s.denied 0 then
      set s.tick
      return none
    else
      set (s.take rest)
      return some f

def kfree (f : Nat) : VmM Unit := do
  if ¬Managed f then throw .kfree
  else modify fun s => s.give f

def walkpgdir (pgdir va : Nat) (alloc : Bool) : VmM (Option (Nat × Nat)) := do
  let pde ← readWord pgdir (PDX va)
  if Present pde then return some (PTE_ADDR pde / PGSIZE, PTX va)
  else if !alloc then return none
  else
    match ← kalloc with
    | none => return none
    | some pgtab =>
      memset pgtab 0
      writeWord pgdir (PDX va) (pgtab * PGSIZE ||| (PTE_P ||| PTE_W ||| PTE_U))
      return some (pgtab, PTX va)

/-- No loop over addresses is longer. -/
abbrev NPAGES : Nat := 2 ^ 20

def mappagesLoop (pgdir last perm : Nat) : Nat → Nat → Nat → VmM Int
  | 0, _, _ => throw .loops
  | fuel + 1, a, pa => do
    match ← walkpgdir pgdir a true with
    | none => return -1
    | some (pgtab, i) =>
      if Present (← readWord pgtab i) then throw .remap
      else
        writeWord pgtab i (pa ||| perm ||| PTE_P)
        if a = last then return 0
        else mappagesLoop pgdir last perm fuel (u32 (a + PGSIZE)) (u32 (pa + PGSIZE))

def mappages (pgdir va size pa perm : Nat) : VmM Int :=
  mappagesLoop pgdir (PGROUNDDOWN (u32 (va + size + (2 ^ 32 - 1)))) perm NPAGES (PGROUNDDOWN va) pa

/-- What `deallocuvm` does with an entry -/
def freePage (pgtab i : Nat) : VmM Unit := do
  let pte ← readWord pgtab i
  if Present pte then
    if PTE_ADDR pte = 0 then throw .kfree
    else
      kfree (PTE_ADDR pte / PGSIZE)
      writeWord pgtab i 0

def deallocuvmLoop (pgdir oldsz : Nat) : Nat → Nat → VmM Unit
  | 0, _ => throw .loops
  | fuel + 1, a => do
    if a < oldsz then
      match ← walkpgdir pgdir a false with
      | none =>
        -- `a = PGADDR(PDX(a) + 1, 0, 0) - PGSIZE`, and then `a += PGSIZE`
        let a := u32 (PGADDR (PDX a + 1) 0 0 + (2 ^ 32 - PGSIZE))
        deallocuvmLoop pgdir oldsz fuel (u32 (a + PGSIZE))
      | some (pgtab, i) =>
        freePage pgtab i
        deallocuvmLoop pgdir oldsz fuel (u32 (a + PGSIZE))
    else return ()

def deallocuvm (pgdir oldsz newsz : Nat) : VmM Nat := do
  if newsz ≥ oldsz then return oldsz
  else
    deallocuvmLoop pgdir oldsz (NPAGES + 1) (PGROUNDUP newsz)
    return newsz

/-- The loop of `freevm` over the entries of the directory -/
def freevmTables (pgdir : Nat) : List Nat → VmM Unit
  | [] => return ()
  | i :: rest => do
    let pde ← readWord pgdir i
    if Present pde then kfree (PTE_ADDR pde / PGSIZE)
    freevmTables pgdir rest

def freevm (pgdir : Nat) : VmM Unit := do
  let _ ← deallocuvm pgdir KERNBASE 0
  freevmTables pgdir (List.range NPDENTRIES)
  kfree pgdir

structure Kmap where
  virt : Nat
  physStart : Nat
  physEnd : Nat
  perm : Nat

def kmap : List Kmap :=
  [⟨KERNBASE, 0, EXTMEM, PTE_W⟩,
    ⟨KERNLINK, KERNLINK - KERNBASE, kernelData - KERNBASE, 0⟩,
    ⟨kernelData, kernelData - KERNBASE, PHYSTOP, PTE_W⟩,
    ⟨DEVSPACE, DEVSPACE, 0, PTE_W⟩]

def setupkvmLoop (pgdir : Nat) : List Kmap → VmM (Option Nat)
  | [] => return some pgdir
  | k :: rest => do
    let size := u32 (k.physEnd + (2 ^ 32 - k.physStart))
    if (← mappages pgdir k.virt size k.physStart k.perm) < 0 then
      freevm pgdir
      return none
    else setupkvmLoop pgdir rest

def setupkvm : VmM (Option Nat) := do
  match ← kalloc with
  | none => return none
  | some pgdir =>
    memset pgdir 0
    if KERNBASE + PHYSTOP > DEVSPACE then throw .phystopTooHigh
    else setupkvmLoop pgdir kmap

def allocuvmLoop (pgdir oldsz newsz : Nat) : Nat → Nat → VmM Nat
  | 0, _ => throw .loops
  | fuel + 1, a => do
    if a < newsz then
      match ← kalloc with
      | none =>
        let _ ← deallocuvm pgdir newsz oldsz
        return 0
      | some mem =>
        memset mem 0
        if (← mappages pgdir a PGSIZE (mem * PGSIZE) (PTE_W ||| PTE_U)) < 0 then
          let _ ← deallocuvm pgdir newsz oldsz
          kfree mem
          return 0
        else allocuvmLoop pgdir oldsz newsz fuel (u32 (a + PGSIZE))
    else return newsz

def allocuvm (pgdir oldsz newsz : Nat) : VmM Nat := do
  if newsz ≥ KERNBASE then return 0
  else if newsz < oldsz then return oldsz
  else allocuvmLoop pgdir oldsz newsz (NPAGES + 1) (PGROUNDUP oldsz)

def copyuvmLoop (pgdir d sz : Nat) : Nat → Nat → VmM (Option Nat)
  | 0, _ => throw .loops
  | fuel + 1, i => do
    if i < sz then
      match ← walkpgdir pgdir i false with
      | none => throw .copyuvmPte
      | some (pgtab, k) =>
        let pte ← readWord pgtab k
        if ¬Present pte then throw .copyuvmPage
        else
          match ← kalloc with
          | none =>
            freevm d
            return none
          | some mem =>
            modify fun s => s.setPage mem (s.mem (PTE_ADDR pte / PGSIZE))
            if (← mappages d i PGSIZE (mem * PGSIZE) (PTE_FLAGS pte)) < 0 then
              kfree mem
              freevm d
              return none
            else copyuvmLoop pgdir d sz fuel (u32 (i + PGSIZE))
    else return some d

def copyuvm (pgdir sz : Nat) : VmM (Option Nat) := do
  match ← setupkvm with
  | none => return none
  | some d => copyuvmLoop pgdir d sz (NPAGES + 1) 0

def uva2ka (pgdir uva : Nat) : VmM (Option Nat) := do
  match ← walkpgdir pgdir uva false with
  | none => throw .nullPte
  | some (pgtab, i) =>
    let pte ← readWord pgtab i
    if ¬Present pte then return none
    else if pte &&& PTE_U = 0 then return none
    -- `P2V` of this address is the null pointer.
    else if PTE_ADDR pte = KERNBASE then return none
    else return some (PTE_ADDR pte / PGSIZE)

/-- `memmove` into a page -/
def memmove (f off : Nat) (l : List UInt8) : VmM Unit := modify fun s => s.setPage f ((s.mem f).fill off l)

def copyoutLoop (pgdir : Nat) : Nat → Nat → List UInt8 → VmM Int
  | 0, _, _ => throw .loops
  | fuel + 1, va, buf => do
    if buf.length > 0 then
      let va0 := PGROUNDDOWN va
      match ← uva2ka pgdir va0 with
      | none => return -1
      | some pa0 =>
        let n := min (PGSIZE - (va - va0)) buf.length
        memmove pa0 (va - va0) (buf.take n)
        copyoutLoop pgdir fuel (u32 (va0 + PGSIZE)) (buf.drop n)
    else return 0

def copyout (pgdir va : Nat) (buf : List UInt8) : VmM Int := copyoutLoop pgdir (NPAGES + 1) va buf

end Vm

end Xv6
