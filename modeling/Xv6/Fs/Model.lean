import Mathlib.Data.List.FinRange
import Xv6.Lib.Scan
import Xv6.Superblock

/-!
# Blocks and inodes (`fs.c`)

The file system runs on one device. `blk` is what `bread` returns for it: the buffer cache makes the device a flat
store, so a change of a held buffer is a change of `blk`. Which blocks are passed to `log_write` is seen by a log that
the code is generic in; it answers with its next state, or panics.

Processes hold the locks of the inodes that they work on, and an operation is modelled as one step.
-/

namespace Xv6.Fs

open Xv6.Lib

inductive Panic where
  | log
  | outOfBlocks
  | freeingFree
  | noInodes
  | iget
  | ilock
  | noType
  | outOfRange
deriving DecidableEq

structure Disk (L : Type) where
  sb : Superblock
  blk : Nat → Block
  log : L

/-- `struct dinode`, also the part of `struct inode` that copies it. -/
structure Dinode where
  type : BitVec 16
  major : BitVec 16
  minor : BitVec 16
  nlink : BitVec 16
  size : BitVec 32
  addrs : Fin (NDIRECT + 1) → BitVec 32

structure Inode where
  inum : Nat
  ref : Nat
  valid : Bool
  d : Dinode

structure Devsw where
  read : Option (BitVec 32 → Int × List (BitVec 8))
  write : Option ((Nat → BitVec 8) → BitVec 32 → Int)

structure State (L : Type) where
  disk : Disk L
  inode : Fin NINODE → Inode
  devsw : Nat → Devsw

variable {L : Type}

def Disk.setBlk (d : Disk L) (b : Nat) (v : Block) : Disk L := { d with blk := Function.update d.blk b v }

namespace State

abbrev blk (s : State L) : Nat → Block := s.disk.blk

def setInode (s : State L) (i : Fin NINODE) (ip : Inode) : State L := { s with inode := Function.update s.inode i ip }

def setAddr (s : State L) (i : Fin NINODE) (k : Fin (NDIRECT + 1)) (b : Nat) : State L :=
  let ip := s.inode i
  s.setInode i { ip with d := { ip.d with addrs := Function.update ip.d.addrs k (.ofNat 32 b) } }

end State

section

/-- What `log_write` does with a block: the next state of the log, unless it panics. -/
abbrev LogWrite (L : Type) : Type := L → Nat → Option L

variable (lw : LogWrite L)

def logWrite (d : Disk L) (b : Nat) : Except Panic (Disk L) :=
  match lw d.log b with
  | some l => .ok { d with log := l }
  | none => .error .log

/-! ## Blocks -/

def bzero (d : Disk L) (bno : Nat) : Except Panic (Disk L) := logWrite lw (d.setBlk bno (Bytes.fill BSIZE 0#8)) bno

def mask (bi : Nat) : BitVec 8 := 1#8 <<< (bi % 8)

def isFree (bp : Block) (bi : Nat) : Bool := bp.get (bi / 8) &&& mask bi = 0#8

def bblock (sb : Superblock) (b : Nat) : Nat := b / BPB + sb.bmapstart

/-- The two loops of `balloc`, from block `b` on; `k` bounds the passes of the outer one. -/
def findFree (d : Disk L) : Nat → Nat → Option (Nat × Nat)
  | 0, _ => none
  | k + 1, b =>
    if b < d.sb.size then
      match scan (fun bi => b + bi < d.sb.size && isFree (d.blk (bblock d.sb b)) bi) BPB 0 with
      | some bi => some (b, bi)
      | none => findFree d k (b + BPB)
    else none

def balloc (d : Disk L) : Except Panic (Nat × Disk L) :=
  match findFree d (d.sb.size / BPB + 1) 0 with
  | some (b, bi) => do
    let bp := d.blk (bblock d.sb b)
    let bp := bp.set (bi / 8) (bp.get (bi / 8) ||| mask bi)
    let d ← logWrite lw (d.setBlk (bblock d.sb b) bp) (bblock d.sb b)
    let d ← bzero lw d (b + bi)
    return (b + bi, d)
  | none => .error .outOfBlocks

def bfree (d : Disk L) (b : Nat) : Except Panic (Disk L) :=
  let d := { d with sb := readsb (d.blk 1) }
  let bp := d.blk (bblock d.sb b)
  let bi := b % BPB
  if isFree bp bi then .error .freeingFree
  else logWrite lw (d.setBlk (bblock d.sb b) (bp.set (bi / 8) (bp.get (bi / 8) &&& ~~~ mask bi))) (bblock d.sb b)

/-! ## The inode on disk -/

def iblock (sb : Superblock) (inum : Nat) : Nat := inum / IPB + sb.inodestart

def readDinode (bp : Block) (k : Nat) : Dinode where
  type := bp.half (64 * k)
  major := bp.half (64 * k + 2)
  minor := bp.half (64 * k + 4)
  nlink := bp.half (64 * k + 6)
  size := bp.word (64 * k + 8)
  addrs := fun i => bp.word (64 * k + 12 + 4 * i)

def writeDinode (bp : Block) (k : Nat) (d : Dinode) : Block :=
  let bp := (((bp.setHalf (64 * k) d.type).setHalf (64 * k + 2) d.major).setHalf (64 * k + 4) d.minor).setHalf
    (64 * k + 6) d.nlink
  (bp.setWord (64 * k + 8) d.size).setWords (64 * k + 12)
    (fun i => if h : i < NDIRECT + 1 then d.addrs ⟨i, h⟩ else 0) (NDIRECT + 1)

def Dinode.zero : Dinode := ⟨0, 0, 0, 0, 0, fun _ => 0⟩

def Disk.dinode (d : Disk L) (inum : Nat) : Dinode := readDinode (d.blk (iblock d.sb inum)) (inum % IPB)

def putDinode (d : Disk L) (inum : Nat) (di : Dinode) : Except Panic (Disk L) :=
  let b := iblock d.sb inum
  logWrite lw (d.setBlk b (writeDinode (d.blk b) (inum % IPB) di)) b

/-! ## The inode cache -/

def iinit (blk : Nat → Block) (devsw : Nat → Devsw) (log : L) : State L where
  disk := { sb := readsb (blk 1), blk, log }
  inode := fun _ => { inum := 0, ref := 0, valid := false, d := Dinode.zero }
  devsw

def iget (s : State L) (inum : Nat) : Except Panic (Fin NINODE × State L) :=
  match (List.finRange NINODE).find? fun i => (s.inode i).ref > 0 ∧ (s.inode i).inum = inum with
  | some i => .ok (i, s.setInode i { s.inode i with ref := (s.inode i).ref + 1 })
  | none =>
    match (List.finRange NINODE).find? fun i => (s.inode i).ref = 0 with
    | some i => .ok (i, s.setInode i { s.inode i with inum, ref := 1, valid := false })
    | none => .error .iget

def idup (s : State L) (i : Fin NINODE) : State L := s.setInode i { s.inode i with ref := (s.inode i).ref + 1 }

def ialloc (s : State L) (type : BitVec 16) : Except Panic (Fin NINODE × State L) :=
  match scan (fun inum => (s.disk.dinode inum).type = 0#16) (s.disk.sb.ninodes - 1) 1 with
  | some inum => do
    let d ← putDinode lw s.disk inum { Dinode.zero with type }
    iget { s with disk := d } inum
  | none => .error .noInodes

def iupdate (s : State L) (i : Fin NINODE) : Except Panic (State L) := do
  let d ← putDinode lw s.disk (s.inode i).inum (s.inode i).d
  return { s with disk := d }

def ilock (s : State L) (i : Fin NINODE) : Except Panic (State L) :=
  let ip := s.inode i
  if ip.ref < 1 then .error .ilock
  else if ip.valid then .ok s
  else
    let s := s.setInode i { ip with d := s.disk.dinode ip.inum, valid := true }
    if (s.inode i).d.type = 0#16 then .error .noType else .ok s

/-! ## Inode content -/

def indirect : Fin (NDIRECT + 1) := Fin.last NDIRECT

/-- `if((addr = ip->addrs[k]) == 0) ip->addrs[k] = addr = balloc(ip->dev)`. -/
def bmapAddr (s : State L) (i : Fin NINODE) (k : Fin (NDIRECT + 1)) : Except Panic (Nat × State L) :=
  if (s.inode i).d.addrs k = 0 then do
    let (b, d) ← balloc lw s.disk
    return (b, { s with disk := d }.setAddr i k b)
  else .ok (((s.inode i).d.addrs k).toNat, s)

def bmapEntry (s : State L) (ind bn : Nat) : Except Panic (Nat × State L) :=
  if (s.blk ind).word (4 * bn) = 0 then do
    let (b, d) ← balloc lw s.disk
    let d ← logWrite lw (d.setBlk ind ((d.blk ind).setWord (4 * bn) (.ofNat 32 b))) ind
    return (b, { s with disk := d })
  else .ok (((s.blk ind).word (4 * bn)).toNat, s)

/-- `bmap`: the block address of the `bn`-th block of inode `i`, allocated if there is no such block. -/
def bmap (s : State L) (i : Fin NINODE) (bn : Nat) : Except Panic (Nat × State L) :=
  if h : bn < NDIRECT then bmapAddr lw s i ⟨bn, Nat.lt_succ_of_lt h⟩
  else if bn - NDIRECT < NINDIRECT then do
    let (ind, s) ← bmapAddr lw s i indirect
    bmapEntry lw s ind (bn - NDIRECT)
  else .error .outOfRange

def truncDirect (i : Fin NINODE) (s : State L) (k : Fin NDIRECT) : Except Panic (State L) :=
  let addr := (s.inode i).d.addrs k.castSucc
  if addr = 0 then .ok s
  else do
    let d ← bfree lw s.disk addr.toNat
    return { s with disk := d }.setAddr i k.castSucc 0

def truncIndirect (ind : Nat) (d : Disk L) (j : Fin NINDIRECT) : Except Panic (Disk L) :=
  let addr := (d.blk ind).word (4 * j)
  if addr = 0 then .ok d else bfree lw d addr.toNat

def truncBlock (s : State L) (i : Fin NINODE) : Except Panic (State L) :=
  let addr := (s.inode i).d.addrs indirect
  if addr = 0 then .ok s
  else do
    let d ← (List.finRange NINDIRECT).foldlM (truncIndirect lw addr.toNat) s.disk
    let d ← bfree lw d addr.toNat
    return { s with disk := d }.setAddr i indirect 0

def itrunc (s : State L) (i : Fin NINODE) : Except Panic (State L) := do
  let s ← (List.finRange NDIRECT).foldlM (truncDirect lw i) s
  let s ← truncBlock lw s i
  let ip := s.inode i
  iupdate lw (s.setInode i { ip with d := { ip.d with size := 0 } }) i

def ifree (s : State L) (i : Fin NINODE) : Except Panic (State L) := do
  let s ← itrunc lw s i
  let ip := s.inode i
  let s ← iupdate lw (s.setInode i { ip with d := { ip.d with type := 0 } }) i
  return s.setInode i { s.inode i with valid := false }

def iput (s : State L) (i : Fin NINODE) : Except Panic (State L) := do
  let ip := s.inode i
  let s ← if ip.valid ∧ ip.d.nlink = 0 ∧ ip.ref = 1 then ifree lw s i else .ok s
  return s.setInode i { s.inode i with ref := (s.inode i).ref - 1 }

/-- The loop of `readi`: `n` bytes from `off` on, in at most `k` passes. -/
def readLoop (i : Fin NINODE) : Nat → State L → Nat → Nat → Except Panic (List (BitVec 8) × State L)
  | 0, s, _, _ => .ok ([], s)
  | k + 1, s, off, n =>
    if n = 0 then .ok ([], s)
    else do
      let (b, s) ← bmap lw s i (off / BSIZE)
      let m := min n (BSIZE - off % BSIZE)
      let bytes := (List.range m).map fun j => (s.blk b).get (off % BSIZE + j)
      let (rest, s) ← readLoop i k s (off + m) (n - m)
      return (bytes ++ rest, s)

/-- `readi`: the return value and the bytes that it has stored at `dst`. -/
def readi (s : State L) (i : Fin NINODE) (off n : BitVec 32) : Except Panic (Int × List (BitVec 8) × State L) :=
  let ip := s.inode i
  if ip.d.type = T_DEV then
    if ip.d.major.toInt < 0 ∨ ip.d.major.toInt ≥ NDEV then .ok (-1, [], s)
    else
      match (s.devsw ip.d.major.toNat).read with
      | none => .ok (-1, [], s)
      | some f => .ok ((f n).1, (f n).2, s)
  else if off > ip.d.size ∨ off + n < off then .ok (-1, [], s)
  else do
    let n := if off + n > ip.d.size then ip.d.size - off else n
    let (bytes, s) ← readLoop lw i n.toNat s off.toNat n.toNat
    return (n.toNat, bytes, s)

/-- The loop of `writei`: `n` bytes of `src` at `off`, in at most `k` passes. -/
def writeLoop (i : Fin NINODE) : Nat → State L → (Nat → BitVec 8) → Nat → Nat → Except Panic (State L)
  | 0, s, _, _, _ => .ok s
  | k + 1, s, src, off, n =>
    if n = 0 then .ok s
    else do
      let (b, s) ← bmap lw s i (off / BSIZE)
      let m := min n (BSIZE - off % BSIZE)
      let d ← logWrite lw (s.disk.setBlk b ((s.blk b).write (off % BSIZE) m src)) b
      writeLoop i k { s with disk := d } (fun j => src (m + j)) (off + m) (n - m)

def writei (s : State L) (i : Fin NINODE) (src : Nat → BitVec 8) (off n : BitVec 32) :
    Except Panic (Int × State L) :=
  let ip := s.inode i
  if ip.d.type = T_DEV then
    if ip.d.major.toInt < 0 ∨ ip.d.major.toInt ≥ NDEV then .ok (-1, s)
    else
      match (s.devsw ip.d.major.toNat).write with
      | none => .ok (-1, s)
      | some f => .ok (f src n, s)
  else if off > ip.d.size ∨ off + n < off then .ok (-1, s)
  else if off + n > .ofNat 32 (MAXFILE * BSIZE) then .ok (-1, s)
  else do
    let s ← writeLoop lw i n.toNat s src off.toNat n.toNat
    let ip := s.inode i
    if n > 0 ∧ off + n > ip.d.size then do
      let s ← iupdate lw (s.setInode i { ip with d := { ip.d with size := off + n } }) i
      return (n.toNat, s)
    else return (n.toNat, s)

/-! ## Runs -/

/-- A call into the inode layer. The entries are those that `iget` has returned to the caller. -/
inductive Call where
  | iget (inum : Nat)
  | idup (i : Fin NINODE)
  | ialloc (type : BitVec 16)
  | ilock (i : Fin NINODE)
  /-- `ip->major = major; ip->minor = minor; ip->nlink = nlink; iupdate(ip)`, as `create`, `link` and `unlink` do. -/
  | update (i : Fin NINODE) (major minor nlink : BitVec 16)
  | bmap (i : Fin NINODE) (bn : Nat)
  | readi (i : Fin NINODE) (off n : BitVec 32)
  | writei (i : Fin NINODE) (src : Nat → BitVec 8) (off n : BitVec 32)
  | itrunc (i : Fin NINODE)
  | iput (i : Fin NINODE)

/-- The inode exists; the caller has a reference to entry `i`, and has locked it if the call needs that. -/
def Call.Allowed (s : State L) : Call → Prop
  | .iget inum => inum < s.disk.sb.ninodes
  | .ialloc _ => True
  | .idup i | .ilock i | .iput i => 0 < (s.inode i).ref
  | .update i _ _ _ | .bmap i _ | .readi i _ _ | .writei i _ _ _ | .itrunc i =>
    0 < (s.inode i).ref ∧ (s.inode i).valid = true

instance (s : State L) (c : Call) : Decidable (c.Allowed s) := by
  cases c <;> unfold Call.Allowed <;> infer_instance

def exec (s : State L) : Call → Except Panic (State L)
  | .iget inum => return (← iget s inum).2
  | .idup i => return idup s i
  | .ialloc type => return (← ialloc lw s type).2
  | .ilock i => ilock s i
  | .update i major minor nlink =>
    iupdate lw (s.setInode i { s.inode i with d := { (s.inode i).d with major, minor, nlink } }) i
  | .bmap i bn => return (← bmap lw s i bn).2
  | .readi i off n => return (← readi lw s i off n).2.2
  | .writei i src off n => return (← writei lw s i src off n).2
  | .itrunc i => itrunc lw s i
  | .iput i => iput lw s i

def step (s : State L) (c : Call) : Option (State L) := (exec lw s c).toOption

end

end Xv6.Fs
