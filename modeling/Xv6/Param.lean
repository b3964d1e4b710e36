import Xv6.Lib.Bytes

/-!
# Constants of `param.h`, `fs.h` and `stat.h`

Only the constants that the modelled code uses.
-/

namespace Xv6

def MAXOPBLOCKS : Nat := 10

def LOGSIZE : Nat := MAXOPBLOCKS * 3

def NBUF : Nat := MAXOPBLOCKS * 3

def FSSIZE : Nat := 100000

def NINODE : Nat := 50

theorem ninode_pos : 0 < NINODE := by decide

def NDEV : Nat := 10

def BSIZE : Nat := 512

def NDIRECT : Nat := 12

def NINDIRECT : Nat := BSIZE / 4

def MAXFILE : Nat := NDIRECT + NINDIRECT

def IPB : Nat := BSIZE / 64

def BPB : Nat := BSIZE * 8

def T_DIR : BitVec 16 := 1

def T_FILE : BitVec 16 := 2

def T_DEV : BitVec 16 := 3

abbrev Block : Type := Lib.Bytes BSIZE

end Xv6
