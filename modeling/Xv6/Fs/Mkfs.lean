import Xv6.Fs.Model

/-!
# The initial file system (`mkfs.c`)

`mkfs` runs on the build machine, over an image of `FSSIZE` zero blocks. Its own `balloc` marks the blocks that it has
handed out so far, from block 0 on.
-/

namespace Xv6.Mkfs

open Xv6.Lib Xv6.Fs

def NINODES : Nat := 200

def nbitmap : Nat := FSSIZE / (BSIZE * 8) + 1

def ninodeblocks : Nat := NINODES / IPB + 1

def nlog : Nat := LOGSIZE

def nmeta : Nat := 2 + nlog + ninodeblocks + nbitmap

def sb : Superblock where
  size := FSSIZE
  nblocks := FSSIZE - nmeta
  ninodes := NINODES
  nlog := nlog
  logstart := 2
  inodestart := 2 + nlog
  bmapstart := 2 + nlog + ninodeblocks

structure Img where
  blk : Nat → Block
  freeinode : Nat
  freeblock : Nat

/-- The assertions of `mkfs` that depend on its input. -/
inductive Error where
  | slash
  | fileTooBig
  | full
deriving DecidableEq

def wsect (m : Img) (sec : Nat) (buf : Block) : Img := { m with blk := Function.update m.blk sec buf }

def rinode (m : Img) (inum : Nat) : Dinode := readDinode (m.blk (iblock sb inum)) (inum % IPB)

def winode (m : Img) (inum : Nat) (din : Dinode) : Img :=
  wsect m (iblock sb inum) (writeDinode (m.blk (iblock sb inum)) (inum % IPB) din)

def ialloc (m : Img) (type : BitVec 16) : Nat × Img :=
  (m.freeinode, winode { m with freeinode := m.freeinode + 1 } m.freeinode { Dinode.zero with type, nlink := 1 })

/-- Take `freeblock++` for address `k` of the inode, unless there is a block already. -/
def takeAddr (m : Img) (din : Dinode) (k : Fin (NDIRECT + 1)) : Img × Dinode :=
  if din.addrs k = 0 then
    ({ m with freeblock := m.freeblock + 1 },
      { din with addrs := Function.update din.addrs k (.ofNat 32 m.freeblock) })
  else (m, din)

/-- Take `freeblock++` for entry `j` of the indirect block `ind`, unless there is a block already. -/
def takeEntry (m : Img) (ind j : Nat) : Img :=
  if (m.blk ind).word (4 * j) = 0 then
    wsect { m with freeblock := m.freeblock + 1 } ind ((m.blk ind).setWord (4 * j) (.ofNat 32 m.freeblock))
  else m

def fileBlock (m : Img) (din : Dinode) (fbn : Nat) : Nat × Img × Dinode :=
  if h : fbn < NDIRECT then
    let k : Fin (NDIRECT + 1) := ⟨fbn, Nat.lt_succ_of_lt h⟩
    let (m, din) := takeAddr m din k
    ((din.addrs k).toNat, m, din)
  else
    let (m, din) := takeAddr m din indirect
    let ind := (din.addrs indirect).toNat
    let m := takeEntry m ind (fbn - NDIRECT)
    (((m.blk ind).word (4 * (fbn - NDIRECT))).toNat, m, din)

/-- The loop of `iappend`: `n` bytes of `p` at `off`, in at most `k` passes. -/
def appendLoop : Nat → Img → Dinode → (Nat → BitVec 8) → Nat → Nat → Except Error (Img × Dinode)
  | 0, m, din, _, _, _ => .ok (m, din)
  | k + 1, m, din, p, off, n =>
    if n = 0 then .ok (m, din)
    else if off / BSIZE < MAXFILE then
      let fbn := off / BSIZE
      let (x, m, din) := fileBlock m din fbn
      let n1 := min n ((fbn + 1) * BSIZE - off)
      let m := wsect m x ((m.blk x).write (off - fbn * BSIZE) n1 p)
      appendLoop k m din (fun j => p (n1 + j)) (off + n1) (n - n1)
    else .error .fileTooBig

def iappend (m : Img) (inum : Nat) (p : Nat → BitVec 8) (n : Nat) : Except Error Img := do
  let din := rinode m inum
  let off := din.size.toNat
  let (m, din) ← appendLoop n m din p off n
  return winode m inum { din with size := .ofNat 32 (off + n) }

def dirent (inum : Nat) (name : List (BitVec 8)) (j : Nat) : BitVec 8 :=
  if j = 0 then .ofNat 8 inum
  else if j = 1 then .ofNat 8 (inum / 256)
  else if j < 16 then name.getD (j - 2) 0
  else 0

structure File where
  name : List (BitVec 8)
  data : List (BitVec 8)

def File.skip (f : File) : List (BitVec 8) := if f.name.head? = some 95#8 then f.name.tail else f.name

/-- `while((cc = read(fd, buf, sizeof(buf))) > 0) iappend(inum, buf, cc)`, in at most `k` passes. -/
def copyLoop (inum : Nat) : Nat → Img → List (BitVec 8) → Except Error Img
  | 0, m, _ => .ok m
  | k + 1, m, data =>
    if data.length = 0 then .ok m
    else do
      let m ← iappend m inum (data.getD · 0) (min BSIZE data.length)
      copyLoop inum k m (data.drop BSIZE)

def addFile (rootino : Nat) (m : Img) (f : File) : Except Error Img := do
  if f.name.any (· = 47#8) then .error .slash
  else
    let (inum, m) := ialloc m T_FILE
    let m ← iappend m rootino (dirent inum f.skip) 16
    copyLoop inum f.data.length m f.data

def fixRoot (m : Img) (rootino : Nat) : Img :=
  let din := rinode m rootino
  winode m rootino { din with size := .ofNat 32 ((din.size.toNat / BSIZE + 1) * BSIZE) }

def balloc (m : Img) (used : Nat) : Except Error Img :=
  if used < BSIZE * 8 then
    .ok (wsect m sb.bmapstart
      ((List.range used).foldl (fun buf i => buf.set (i / 8) (buf.get (i / 8) ||| mask i)) (Bytes.fill BSIZE 0#8)))
  else .error .full

def blank : Img where
  blk := Function.update (fun _ => Bytes.fill BSIZE 0#8) 1 (writesb (Bytes.fill BSIZE 0#8) sb)
  freeinode := 1
  freeblock := nmeta

/-- `main`: the blocks of the image for a list of files. -/
def mkfs (files : List File) : Except Error (Nat → Block) := do
  let (rootino, m) := ialloc blank T_DIR
  let m ← iappend m rootino (dirent rootino [46#8]) 16
  let m ← iappend m rootino (dirent rootino [46#8, 46#8]) 16
  let m ← files.foldlM (addFile rootino) m
  let m ← balloc (fixRoot m rootino) m.freeblock
  return m.blk

end Xv6.Mkfs
