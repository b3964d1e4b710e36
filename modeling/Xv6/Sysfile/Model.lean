import Xv6.Fs.Dirlookup
import Xv6.Lib.Hoare

/-!
# System calls on blocks and inodes (`fs.c`, `sysfile.c`)

Path names, directories and the system calls over the inode layer of `Xv6.Fs`, down to the blocks. One process runs at a
time, so a call is a command on the state, and the locks of inodes are left out: `iunlock` does nothing here, and
`iunlockput` is `iput`.
-/

namespace Xv6.Sysfile

open Xv6.Lib Xv6.Fs Xv6.Ftable
open Xv6.Dir (Dirent Str namecmp strncpy skipelem slash dot dotdot DIRSIZ ROOTINO)
open Xv6.Ptable (Slot)

variable {L α : Type}

abbrev M (L α : Type) := Cmd (Fs.State L) DirPanic α

def inode (f : Fs.State L → Except Fs.Panic (α × Fs.State L)) : M L α := fun s => (f s).mapError .inode

/-! ## The inode layer -/

def iget (inum : Nat) : M L (Fin NINODE) := inode fun s => Fs.iget s inum

def idup (ip : Fin NINODE) : M L Unit := inode fun s => .ok ((), Fs.idup s ip)

def ilock (ip : Fin NINODE) : M L Unit := inode fun s => return ((), ← Fs.ilock s ip)

def fields (ip : Fin NINODE) : M L Dinode := fun s => .ok ((s.inode ip).d, s)

def inum (ip : Fin NINODE) : M L Nat := fun s => .ok ((s.inode ip).inum, s)

def assign (ip : Fin NINODE) (f : Dinode → Dinode) : M L Unit := fun s =>
  .ok ((), s.setInode ip { s.inode ip with d := f (s.inode ip).d })

section

variable (lw : LogWrite L)

def iput (ip : Fin NINODE) : M L Unit := inode fun s => return ((), ← Fs.iput lw s ip)

def ialloc (type : BitVec 16) : M L (Fin NINODE) := inode fun s => Fs.ialloc lw s type

def iupdate (ip : Fin NINODE) : M L Unit := inode fun s => return ((), ← Fs.iupdate lw s ip)

def readi (ip : Fin NINODE) (off n : BitVec 32) : M L (Int × List (BitVec 8)) := inode fun s => do
  let (r, bytes, s) ← Fs.readi lw s ip off n
  return ((r, bytes), s)

def writei (ip : Fin NINODE) (src : Nat → BitVec 8) (off n : BitVec 32) : M L Int := inode fun s =>
  Fs.writei lw s ip src off n

/-! ## Directories -/

def dirlookup (dp : Fin NINODE) (name : Str) : M L (Option (BitVec 32 × Fin NINODE)) := fun s => Fs.dirlookup lw s dp name

/-- The loops of `dirlink` and `isdirempty` over the entries from `off` on, in at most `k` passes: whether one with
property `f` is found, and the offset where the loop ends. -/
def findEntry (e : DirPanic) (f : Dirent → Bool) (dp : Fin NINODE) : Nat → BitVec 32 → M L (Bool × BitVec 32)
  | 0, off => return (false, off)
  | k + 1, off => do
    let d ← fields dp
    if off < d.size then
      let (r, bytes) ← readi lw dp off 16
      if r ≠ 16 then throw e
      else if f (Dirent.ofBytes bytes) then return (true, off)
      else findEntry e f dp k (off + 16)
    else return (false, off)

def writeEntry (dp : Fin NINODE) (de : Dirent) (off : BitVec 32) (e : DirPanic) : M L Unit := do
  let r ← writei lw dp (de.bytes.getD · 0) off 16
  if r ≠ 16 then throw e else return

def dirlink (dp : Fin NINODE) (name : Str) (inum : Nat) : M L Int := do
  match ← dirlookup lw dp name with
  | some (_, ip) =>
    iput lw ip
    return -1
  | none =>
    let d ← fields dp
    let (_, off) ← findEntry lw .dirlinkRead (·.inum = 0) dp (d.size.toNat + 1) 0
    writeEntry lw dp ⟨.ofNat 16 inum, strncpy DIRSIZ name⟩ off .dirlink
    return 0

def isdirempty (dp : Fin NINODE) : M L Bool := do
  let d ← fields dp
  let (found, _) ← findEntry lw .isdirempty (·.inum ≠ 0) dp (d.size.toNat + 1) 32
  return !found

/-! ## Paths -/

def namexLoop (nameiparent : Bool) : Nat → Fin NINODE → Str → Str → M L (Option (Fin NINODE × Str))
  | 0, _, _, _ => return none
  | k + 1, ip, path, name =>
    match skipelem path with
    | none =>
      if nameiparent then do
        iput lw ip
        return none
      else return some (ip, name)
    | some (name, path) => do
      ilock ip
      let d ← fields ip
      if d.type ≠ T_DIR then
        iput lw ip
        return none
      else if nameiparent ∧ path.headD 0 = 0 then
        -- Stop one level early.
        return some (ip, name)
      else
        match ← dirlookup lw ip name with
        | none =>
          iput lw ip
          return none
        | some (_, next) =>
          iput lw ip
          namexLoop nameiparent k next path name

/-- Every pass of the loop takes at least one byte of the path. -/
def namex (cwd : Fin NINODE) (path : Str) (nameiparent : Bool) : M L (Option (Fin NINODE × Str)) :=
  if path.headD 0 = slash then do
    let ip ← iget ROOTINO
    namexLoop lw nameiparent (path.length + 1) ip path []
  else do
    idup cwd
    namexLoop lw nameiparent (path.length + 1) cwd path []

def namei (cwd : Fin NINODE) (path : Str) : M L (Option (Fin NINODE)) := return (← namex lw cwd path false).map Prod.fst

def nameiparent (cwd : Fin NINODE) (path : Str) : M L (Option (Fin NINODE × Str)) := namex lw cwd path true

/-! ## `create` -/

def mustLink (dp : Fin NINODE) (name : Str) (ip : Fin NINODE) (e : DirPanic) : M L Unit := do
  let r ← dirlink lw dp name (← inum ip)
  if r < 0 then throw e else return

def createDots (dp ip : Fin NINODE) (type : BitVec 16) : M L Unit :=
  if type = T_DIR then do
    -- for ".."
    assign dp fun d => { d with nlink := d.nlink + 1 }
    iupdate lw dp
    -- No `nlink++` for ".": avoid cyclic ref count.
    mustLink lw ip dot ip .dots
    mustLink lw ip dotdot dp .dots
  else return

def createNew (dp : Fin NINODE) (name : Str) (ip : Fin NINODE) (type major minor : BitVec 16) : M L (Option (Fin NINODE)) := do
  ilock ip
  assign ip fun d => { d with major, minor, nlink := 1 }
  iupdate lw ip
  createDots lw dp ip type
  mustLink lw dp name ip .create
  iput lw dp
  return some ip

def create (cwd : Fin NINODE) (path : Str) (type major minor : BitVec 16) : M L (Option (Fin NINODE)) := do
  match ← nameiparent lw cwd path with
  | none => return none
  | some (dp, name) =>
    ilock dp
    match ← dirlookup lw dp name with
    | some (_, ip) =>
      iput lw dp
      ilock ip
      let d ← fields ip
      if type = T_FILE ∧ d.type = T_FILE then return some ip
      else
        iput lw ip
        return none
    | none =>
      let ip ← ialloc lw type
      createNew lw dp name ip type major minor

end

/-! ## System calls -/

structure Sys (L : Type) where
  fs : Fs.State L
  /-- `log.outstanding`. -/
  outstanding : Nat
  cwd : Slot → Fin NINODE

abbrev SysM (L α : Type) := Cmd (Sys L) DirPanic α

def onFs (x : M L α) : SysM L α := zoom Sys.fs (fun s fs => { s with fs }) x

def beginOp : SysM L Unit := fun s => .ok ((), { s with outstanding := s.outstanding + 1 })

def endOp : SysM L Unit := fun s => .ok ((), { s with outstanding := s.outstanding - 1 })

def getCwd (p : Slot) : SysM L (Fin NINODE) := fun s => .ok (s.cwd p, s)

section

variable (lw : LogWrite L) (p : Slot)

def nlinkDown (ip : Fin NINODE) : SysM L Unit := do
  onFs (assign ip fun d => { d with nlink := d.nlink - 1 })
  onFs (iupdate lw ip)

def linkBad (ip : Fin NINODE) : SysM L Int := do
  onFs (ilock ip)
  nlinkDown lw ip
  onFs (iput lw ip)
  endOp
  return -1

/-- The arguments are `none` where `argstr` fails. -/
def sysLink (old new : Option Str) : SysM L Int := do
  match old, new with
  | some old, some new =>
    beginOp
    match ← onFs (namei lw (← getCwd p) old) with
    | none =>
      endOp
      return -1
    | some ip =>
      onFs (ilock ip)
      let d ← onFs (fields ip)
      if d.type = T_DIR then
        onFs (iput lw ip)
        endOp
        return -1
      else
        onFs (assign ip fun d => { d with nlink := d.nlink + 1 })
        onFs (iupdate lw ip)
        match ← onFs (nameiparent lw (← getCwd p) new) with
        | none => linkBad lw ip
        | some (dp, name) =>
          onFs (ilock dp)
          if (← onFs (dirlink lw dp name (← onFs (inum ip)))) < 0 then
            onFs (iput lw dp)
            linkBad lw ip
          else
            onFs (iput lw dp)
            onFs (iput lw ip)
            endOp
            return 0
  | _, _ => return -1

def unlinkBad (dp : Fin NINODE) : SysM L Int := do
  onFs (iput lw dp)
  endOp
  return -1

/-- The part of `sysUnlink` that removes the entry; `dir` if `ip` is a directory. -/
def unlinkEntry (dp ip : Fin NINODE) (off : BitVec 32) (dir : Bool) : SysM L Int := do
  onFs (writeEntry lw dp ⟨0, List.replicate DIRSIZ 0⟩ off .unlinkWrite)
  (if dir then nlinkDown lw dp else return)
  onFs (iput lw dp)
  nlinkDown lw ip
  onFs (iput lw ip)
  endOp
  return 0

def sysUnlink (path : Option Str) : SysM L Int := do
  match path with
  | none => return -1
  | some path =>
    beginOp
    match ← onFs (nameiparent lw (← getCwd p) path) with
    | none =>
      endOp
      return -1
    | some (dp, name) =>
      onFs (ilock dp)
      -- Cannot unlink "." or "..".
      if namecmp name dot = 0 ∨ namecmp name dotdot = 0 then unlinkBad lw dp
      else
        match ← onFs (dirlookup lw dp name) with
        | none => unlinkBad lw dp
        | some (off, ip) =>
          onFs (ilock ip)
          let d ← onFs (fields ip)
          if d.nlink.toInt < 1 then throw .nlink
          else if d.type = T_DIR then
            if ← onFs (isdirempty lw ip) then unlinkEntry lw dp ip off true
            else
              onFs (iput lw ip)
              unlinkBad lw dp
          else unlinkEntry lw dp ip off false

end

end Xv6.Sysfile
