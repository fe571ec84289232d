import Mathlib.Data.Nat.Basic

/-! # Sizes fixed by `param.h` and `fs.h` -/

namespace Xv6

abbrev INT_MAX : Int := 2147483647
abbrev NPROC : Nat := 64
abbrev NCPU : Nat := 8
abbrev NOFILE : Nat := 16
abbrev NFILE : Nat := 100
abbrev NINODE : Nat := 50
abbrev NDEV : Nat := 10
abbrev ROOTINO : Nat := 1
abbrev MAXOPBLOCKS : Nat := 10
abbrev LOGSIZE : Nat := MAXOPBLOCKS * 3
abbrev NBUF : Nat := MAXOPBLOCKS * 3
abbrev FSSIZE : Nat := 1000
abbrev BSIZE : Nat := 512
abbrev NDIRECT : Nat := 12
abbrev NINDIRECT : Nat := BSIZE / 4
abbrev MAXFILE : Nat := NDIRECT + NINDIRECT
abbrev BPB : Nat := BSIZE * 8
abbrev DIRSIZ : Nat := 14

instance neZeroNPROC : @NeZero Nat .ofOfNat0 NPROC := ⟨by decide⟩
instance neZeroNOFILE : @NeZero Nat .ofOfNat0 NOFILE := ⟨by decide⟩
instance neZeroNFILE : @NeZero Nat .ofOfNat0 NFILE := ⟨by decide⟩
instance neZeroNINODE : @NeZero Nat .ofOfNat0 NINODE := ⟨by decide⟩
instance neZeroNBUF : @NeZero Nat .ofOfNat0 NBUF := ⟨by decide⟩
-- Runs on fixed inputs have three threads at most.
instance neZeroThree : @NeZero Nat .ofOfNat0 3 := ⟨by decide⟩

end Xv6
