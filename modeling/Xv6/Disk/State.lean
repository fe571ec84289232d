import Xv6.Dir.Bytes
import Xv6.Lib.Bits
import Xv6.Lib.Wp
import Xv6.Log.Group

/-!
# Blocks, inodes and files on the disk

The functions of `fs.c` from `balloc` to `dirlink` over the bytes of the blocks.  A block has the
contents that `bread` returns, that is with every update logged so far; the buffers themselves and
the locks are left out.  An inode in memory is found by its number.
-/

namespace Xv6

structure Superblock where
  size : Nat
  nblocks : Nat
  ninodes : Nat
  nlog : Nat
  logstart : Nat
  inodestart : Nat
  bmapstart : Nat
  deriving DecidableEq

def Superblock.ofBlock (b : Block) : Superblock :=
  ⟨b.word 0, b.word 1, b.word 2, b.word 3, b.word 4, b.word 5, b.word 6⟩

structure Dinode where
  type : Int
  major : Int
  minor : Int
  nlink : Int
  size : Nat
  addrs : Fin (NDIRECT + 1) → Nat

def T_DIR : Int := 1

def T_FILE : Int := 2

def T_DEV : Int := 3

/-- `sizeof(struct dinode)` -/
abbrev DINODESIZE : Nat := 64

abbrev IPB : Nat := BSIZE / DINODESIZE

def IBLOCK (i : Nat) (sb : Superblock) : Nat := i / IPB + sb.inodestart

def BBLOCK (b : Nat) (sb : Superblock) : Nat := b / BPB + sb.bmapstart

/-- The `k`th dinode of an inode block. -/
def dinodeAt (b : Block) (k : Nat) : Dinode where
  type := short (b.le (DINODESIZE * k) 2)
  major := short (b.le (DINODESIZE * k + 2) 2)
  minor := short (b.le (DINODESIZE * k + 4) 2)
  nlink := short (b.le (DINODESIZE * k + 6) 2)
  size := b.le (DINODESIZE * k + 8) 4
  addrs j := b.le (DINODESIZE * k + 12 + 4 * j.val) 4

def ushort (x : Int) : Nat := (x % 65536).toNat

def putAddrs (b : Block) (off : Nat) (addrs : Fin (NDIRECT + 1) → Nat) : Block :=
  (List.finRange (NDIRECT + 1)).foldl (fun b j => b.putLe (off + 4 * j.val) 4 (addrs j)) b

def putDinode (b : Block) (k : Nat) (d : Dinode) : Block :=
  let b := b.putLe (DINODESIZE * k) 2 (ushort d.type)
  let b := b.putLe (DINODESIZE * k + 2) 2 (ushort d.major)
  let b := b.putLe (DINODESIZE * k + 4) 2 (ushort d.minor)
  let b := b.putLe (DINODESIZE * k + 6) 2 (ushort d.nlink)
  let b := b.putLe (DINODESIZE * k + 8) 4 d.size
  putAddrs b (DINODESIZE * k + 12) d.addrs

/-- An entry of the inode cache. -/
structure Incore where
  ref : Nat
  valid : Bool
  d : Dinode

structure Store where
  /-- The copy of the super block in memory. -/
  sb : Superblock
  block : Nat → Block
  inode : Nat → Incore
  outstanding : Nat
  /-- Blocks of the current transaction. -/
  lh : List Nat
  logsize : Nat
  devread : Nat → Option (Nat → Option (List UInt8))
  devwrite : Nat → Option (List UInt8 → Int)

inductive StorePanic where
  | tooBig
  | outsideTrans
  | outOfBlocks
  | freeingFree
  | bmapRange
  | igetNoInodes
  | iallocNoInodes
  | ilock
  | ilockNoType
  | dirlookupNotDir
  | dirlookupRead
  | dirlinkRead
  | dirlink
  | unlinkWritei
  deriving DecidableEq

namespace Store

abbrev DiskM (α : Type) := Run StorePanic Store α

def bread (b : Nat) : DiskM Block := do return (← get).block b

/-- The contents of the buffer are `data`. -/
def logWrite (b : Nat) (data : Block) : DiskM Unit := do
  let s ← get
  if s.lh.length ≥ LOGSIZE ∨ s.lh.length + 1 ≥ s.logsize then throw .tooBig
  else if s.outstanding < 1 then throw .outsideTrans
  else set { s with block := Function.update s.block b data, lh := absorb s.lh b }

def readsb : DiskM Unit := modify fun s => { s with sb := .ofBlock (s.block 1) }

def bzero (bno : Nat) : DiskM Unit := logWrite bno Bytes.zero

/-- The inner loop of `balloc`, with the number of bits left: the first free bit from `bi` on of the
bitmap block for `b`. -/
def freeBit (bp : Block) (b size : Nat) : Nat → Nat → Option Nat
  | 0, _ => none
  | n + 1, bi =>
    if b + bi < size then
      if bp.bit bi = false then some bi else freeBit bp b size n (bi + 1)
    else none

def ballocFrom : List Nat → DiskM Nat
  | [] => throw .outOfBlocks
  | b :: rest => do
    let s ← get
    let bp ← bread (BBLOCK b s.sb)
    match freeBit bp b s.sb.size BPB 0 with
    | some bi => do
      logWrite (BBLOCK b s.sb) (bp.setBit bi)
      bzero (b + bi)
      pure (b + bi)
    | none => ballocFrom rest

def balloc : DiskM Nat := do
  let s ← get
  ballocFrom (List.range' 0 ((s.sb.size + BPB - 1) / BPB) BPB)

def bfree (b : Nat) : DiskM Unit := do
  readsb
  let s ← get
  let bp ← bread (BBLOCK b s.sb)
  if bp.bit (b % BPB) = false then throw .freeingFree
  else logWrite (BBLOCK b s.sb) (bp.clearBit (b % BPB))

/-- Entries of the inode cache in use. -/
def cached (s : Store) : Nat := (List.range s.sb.ninodes).countP fun i => 0 < (s.inode i).ref

def setIncore (s : Store) (i : Nat) (n : Incore) : Store :=
  { s with inode := Function.update s.inode i n }

/-- Change the copy of an inode in memory. -/
def modifyInode (i : Nat) (f : Dinode → Dinode) : DiskM Unit :=
  modify fun s => s.setIncore i { s.inode i with d := f (s.inode i).d }

def iupdate (i : Nat) : DiskM Unit := do
  let s ← get
  let bp ← bread (IBLOCK i s.sb)
  logWrite (IBLOCK i s.sb) (putDinode bp (i % IPB) (s.inode i).d)

def iget (i : Nat) : DiskM Unit := do
  let s ← get
  let ip := s.inode i
  if 0 < ip.ref then set (s.setIncore i { ip with ref := ip.ref + 1 })
  else if s.cached ≥ NINODE then throw .igetNoInodes
  else set (s.setIncore i { ip with ref := 1, valid := false })

def ilock (i : Nat) : DiskM Unit := do
  let s ← get
  let ip := s.inode i
  if ip.ref < 1 then throw .ilock
  else if ip.valid then pure ()
  else do
    let bp ← bread (IBLOCK i s.sb)
    let d := dinodeAt bp (i % IPB)
    set (s.setIncore i { ip with d, valid := true })
    if d.type = 0 then throw .ilockNoType else pure ()

/-- A dinode after `memset`, with its type. -/
def freshDinode (type : Int) : Dinode := ⟨short type, 0, 0, 0, 0, fun _ => 0⟩

def iallocFrom (type : Int) : List Nat → DiskM Nat
  | [] => throw .iallocNoInodes
  | inum :: rest => do
    let s ← get
    let bp ← bread (IBLOCK inum s.sb)
    if (dinodeAt bp (inum % IPB)).type = 0 then do
      logWrite (IBLOCK inum s.sb) (putDinode bp (inum % IPB) (freshDinode type))
      iget inum
      pure inum
    else iallocFrom type rest

def ialloc (type : Int) : DiskM Nat := do
  let s ← get
  iallocFrom type (List.range' 1 (s.sb.ninodes - 1))

def setAddr (i : Nat) (k : Fin (NDIRECT + 1)) (addr : Nat) : DiskM Unit :=
  modifyInode i fun d => { d with addrs := Function.update d.addrs k addr }

/-- The block that a slot of `ip->addrs` names, allocated if there is none. -/
def slotBlock (i : Nat) (k : Fin (NDIRECT + 1)) : DiskM Nat := do
  let s ← get
  if (s.inode i).d.addrs k = 0 then do
    let addr ← balloc
    setAddr i k addr
    pure addr
  else pure ((s.inode i).d.addrs k)

def bmap (i bn : Nat) : DiskM Nat :=
  if h : bn < NDIRECT then slotBlock i ⟨bn, Nat.lt_succ_of_lt h⟩
  else if bn - NDIRECT < NINDIRECT then do
    let addr ← slotBlock i (Fin.last NDIRECT)
    let bp ← bread addr
    if bp.word (bn - NDIRECT) = 0 then do
      let a ← balloc
      logWrite addr (bp.putWord (bn - NDIRECT) a)
      pure a
    else pure (bp.word (bn - NDIRECT))
  else throw .bmapRange

def freeSlot (i : Nat) (k : Fin (NDIRECT + 1)) : DiskM Unit := do
  let s ← get
  if (s.inode i).d.addrs k ≠ 0 then do
    bfree ((s.inode i).d.addrs k)
    setAddr i k 0
  else pure ()

def freeSlots (i : Nat) : List (Fin (NDIRECT + 1)) → DiskM Unit
  | [] => pure ()
  | k :: rest => do
    freeSlot i k
    freeSlots i rest

/-- The loop of `itrunc` over the indirect block. -/
def freeEntries (a : Block) : List Nat → DiskM Unit
  | [] => pure ()
  | j :: rest => do
    if a.word j ≠ 0 then bfree (a.word j) else pure ()
    freeEntries a rest

/-- The indirect block and the blocks it names. -/
def freeIndirect (i : Nat) : DiskM Unit := do
  let s ← get
  if (s.inode i).d.addrs (Fin.last NDIRECT) ≠ 0 then do
    let bp ← bread ((s.inode i).d.addrs (Fin.last NDIRECT))
    freeEntries bp (List.range NINDIRECT)
    bfree ((s.inode i).d.addrs (Fin.last NDIRECT))
    setAddr i (Fin.last NDIRECT) 0
  else pure ()

def itrunc (i : Nat) : DiskM Unit := do
  freeSlots i ((List.finRange NDIRECT).map Fin.castSucc)
  freeIndirect i
  modifyInode i fun d => { d with size := 0 }
  iupdate i

def iput (i : Nat) : DiskM Unit := do
  let s ← get
  if (s.inode i).valid ∧ (s.inode i).d.nlink = 0 ∧ (s.inode i).ref = 1 then do
    itrunc i
    modifyInode i fun d => { d with type := 0 }
    iupdate i
    modify fun s => s.setIncore i { s.inode i with valid := false }
  else pure ()
  modify fun s => s.setIncore i { s.inode i with ref := (s.inode i).ref - 1 }

/-- The loop of `readi`; `left` is `n - tot`. -/
def readLoop (i : Nat) : Nat → Nat → Nat → DiskM (List UInt8)
  | 0, _, _ => pure []
  | fuel + 1, off, left =>
    if left = 0 then pure []
    else do
      let b ← bmap i (off / BSIZE)
      let bp ← bread b
      let m := min left (BSIZE - off % BSIZE)
      let rest ← readLoop i fuel (off + m) (left - m)
      pure (bp.slice (off % BSIZE) m ++ rest)

/-- The bytes read, or `none` for -1. -/
def readi (i off n : Nat) : DiskM (Option (List UInt8)) := do
  let s ← get
  let ip := (s.inode i).d
  if ip.type = T_DEV then
    if ip.major < 0 ∨ NDEV ≤ ip.major then pure none
    else match s.devread ip.major.toNat with
      | none => pure none
      | some read => pure (read n)
  else if off > ip.size ∨ (off + n) % 2 ^ 32 < off then pure none
  else do
    let n := if off + n > ip.size then ip.size - off else n
    let data ← readLoop i n off n
    pure (some data)

/-- The loop of `writei`, with the offset at its end. -/
def writeLoop (i : Nat) : Nat → Nat → List UInt8 → DiskM Nat
  | 0, off, _ => pure off
  | fuel + 1, off, src =>
    if src = [] then pure off
    else do
      let b ← bmap i (off / BSIZE)
      let bp ← bread b
      let m := min src.length (BSIZE - off % BSIZE)
      logWrite b (bp.fill (off % BSIZE) (src.take m))
      writeLoop i fuel (off + m) (src.drop m)

def writei (i off : Nat) (src : List UInt8) : DiskM Int := do
  let s ← get
  let ip := (s.inode i).d
  if ip.type = T_DEV then
    if ip.major < 0 ∨ NDEV ≤ ip.major then pure (-1)
    else match s.devwrite ip.major.toNat with
      | none => pure (-1)
      | some write => pure (write src)
  else if off > ip.size ∨ (off + src.length) % 2 ^ 32 < off then pure (-1)
  else if off + src.length > MAXFILE * BSIZE then pure (-1)
  else do
    let off ← writeLoop i src.length off src
    let s ← get
    if 0 < src.length ∧ off > (s.inode i).d.size then do
      modifyInode i fun d => { d with size := off }
      iupdate i
    else pure ()
    pure src.length

/-- A loop over the dirents of a directory, with the offset at which it ends: at a dirent that `stop`
accepts or past the last one. -/
def direntLoop (e : StorePanic) (dp : Nat) (stop : List UInt8 → Bool) :
    Nat → Nat → DiskM (Nat × Option (List UInt8))
  | 0, off => pure (off, none)
  | fuel + 1, off => do
    let s ← get
    if off < (s.inode dp).d.size then do
      match ← readi dp off DIRENTSIZE with
      | none => throw e
      | some de =>
        if de.length ≠ DIRENTSIZE then throw e
        else if stop de then pure (off, some de)
        else direntLoop e dp stop fuel (off + DIRENTSIZE)
    else pure (off, none)

/-- Inode number and offset of the entry, with a reference to the inode. -/
def dirlookup (dp : Nat) (name : List UInt8) : DiskM (Option (Nat × Nat)) := do
  let s ← get
  if (s.inode dp).d.type ≠ T_DIR then throw .dirlookupNotDir
  else do
    let (off, found) ← direntLoop .dirlookupRead dp
      (fun de => inumOf de != 0 && namecmp name (nameOf de) == 0) ((s.inode dp).d.size + 1) 0
    match found with
    | none => pure none
    | some de => do
      iget (inumOf de)
      pure (some (inumOf de, off))

def dirlink (dp : Nat) (name : List UInt8) (inum : Nat) : DiskM Int := do
  match ← dirlookup dp name with
  | some (ip, _) => do
    iput ip
    pure (-1)
  | none => do
    let s ← get
    let (off, _) ← direntLoop .dirlinkRead dp (fun de => inumOf de == 0)
      ((s.inode dp).d.size + 1) 0
    let n ← writei dp off (Dirent.bytes ⟨inum, name⟩)
    if n ≠ DIRENTSIZE then throw .dirlink else pure 0

/-- The part of `sys_unlink` that clears the dirent. -/
def clearDirent (dp off : Nat) : DiskM Unit := do
  let n ← writei dp off (List.replicate DIRENTSIZE 0)
  if n ≠ DIRENTSIZE then throw .unlinkWritei else pure ()

/-- Operations on inodes, in the order in which the system calls make them. -/
inductive Op where
  | beginOp
  | endOp
  | ialloc (type : Int)
  | iget (i : Nat)
  | ilock (i : Nat)
  | iput (i : Nat)
  /-- New `major`, `minor` and `nlink` of a locked inode, with `iupdate`. -/
  | setNode (i : Nat) (major minor nlink : Int)
  | readi (i off n : Nat)
  | writei (i off : Nat) (src : List UInt8)
  | dirlink (dp : Nat) (name : List UInt8) (inum : Nat)
  | clearDirent (dp off : Nat)
  | itrunc (i : Nat)

/-- The caller has locked the inode. -/
def held (s : Store) (i : Nat) : Prop := 0 < (s.inode i).ref ∧ (s.inode i).valid = true

instance (s : Store) (i : Nat) : Decidable (s.held i) := inferInstanceAs (Decidable (_ ∧ _))

/-- What the callers of an operation see to. -/
def Op.ready (s : Store) : Op → Prop
  | .beginOp => s.lh.length + (s.outstanding + 1) * MAXOPBLOCKS ≤ LOGSIZE
  | .endOp => 0 < s.outstanding
  | .ialloc type => short type ≠ 0
  | .iget _ => True
  | .ilock i => i < s.sb.ninodes
  | .iput i => 0 < (s.inode i).ref
  | .setNode i _ _ _ | .readi i _ _ | .writei i _ _ | .dirlink i _ _ | .clearDirent i _
  | .itrunc i => s.held i

instance (s : Store) : (op : Op) → Decidable (op.ready s)
  | .beginOp => inferInstanceAs (Decidable (_ ≤ _))
  | .endOp => inferInstanceAs (Decidable (_ < _))
  | .ialloc _ => inferInstanceAs (Decidable (_ ≠ _))
  | .iget _ => .isTrue trivial
  | .ilock _ => inferInstanceAs (Decidable (_ < _))
  | .iput _ => inferInstanceAs (Decidable (_ < _))
  | .setNode i _ _ _ | .readi i _ _ | .writei i _ _ | .dirlink i _ _ | .clearDirent i _
  | .itrunc i => inferInstanceAs (Decidable (s.held i))

def Op.prog : Op → DiskM Unit
  | .beginOp => modify fun s => { s with outstanding := s.outstanding + 1 }
  | .endOp => modify fun s => { s with
      outstanding := s.outstanding - 1, lh := if s.outstanding = 1 then [] else s.lh }
  | .ialloc type => do let _ ← Store.ialloc type
  | .iget i => Store.iget i
  | .ilock i => Store.ilock i
  | .iput i => Store.iput i
  | .setNode i major minor nlink => do
    modifyInode i fun d => { d with major := short major, minor := short minor, nlink := short nlink }
    iupdate i
  | .readi i off n => do let _ ← Store.readi i off n
  | .writei i off src => do let _ ← Store.writei i off src
  | .dirlink dp name inum => do let _ ← Store.dirlink dp name inum
  | .clearDirent dp off => Store.clearDirent dp off
  | .itrunc i => Store.itrunc i

def step (s : Store) (op : Op) : Outcome StorePanic Store :=
  if op.ready s then
    match op.prog s with
    | .ok (_, s') => .next s'
    | .error e => .panic e
  else .blocked

end Store

end Xv6
