import Xv6.Param

/-!
# The superblock (`fs.h`)

Block 1 of the disk describes its layout. `mkfs` writes it, and the kernel reads it again and again.
-/

namespace Xv6

open Xv6.Lib

structure Superblock where
  size : Nat
  nblocks : Nat
  ninodes : Nat
  nlog : Nat
  logstart : Nat
  inodestart : Nat
  bmapstart : Nat
deriving DecidableEq

def readsb (b : Block) : Superblock where
  size := (b.word 0).toNat
  nblocks := (b.word 4).toNat
  ninodes := (b.word 8).toNat
  nlog := (b.word 12).toNat
  logstart := (b.word 16).toNat
  inodestart := (b.word 20).toNat
  bmapstart := (b.word 24).toNat

def writesb (b : Block) (sb : Superblock) : Block :=
  ((((((b.setWord 0 (.ofNat 32 sb.size)).setWord 4 (.ofNat 32 sb.nblocks)).setWord 8 (.ofNat 32 sb.ninodes)).setWord 12
    (.ofNat 32 sb.nlog)).setWord 16 (.ofNat 32 sb.logstart)).setWord 20 (.ofNat 32 sb.inodestart)).setWord 24
    (.ofNat 32 sb.bmapstart)

end Xv6
