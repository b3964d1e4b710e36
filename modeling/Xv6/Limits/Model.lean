import Xv6.Bio.Model
import Xv6.File.Model
import Xv6.Icache.Model

/-!
# The tables of the file system

What `open`, `read`, `write`, `chdir` and `fork` take from the tables of fixed size: entries of the inode cache, of the
file table and of the buffer cache. One action is one section under `icache.lock` or `ftable.lock`, or an action of the
buffer cache. Which inode a directory entry names, and which block is read, is up to the environment.
-/

namespace Xv6.Limits

open Function

open Xv6.Ftable (FileIx Fd NFILE NOFILE)
open Xv6.Ptable (NPROC)

def ROOTDEV : Nat := 1

def ROOTINO : Nat := 1

abbrev Pid := Ptable.Slot

structure State where
  inode : Icache.Slot → Icache.Inode
  ref : FileIx → Nat
  ip : FileIx → Option Icache.Slot
  ofile : Pid × Fd → Option FileIx
  used : Pid → Bool
  cwd : Pid → Option Icache.Slot
  /-- The inode that a path has led to so far: `ip` in `namex`, `open` and `chdir`, `dp` in `create`. -/
  cur : Pid → Option Icache.Slot
  /-- `next` in `namex`, `ip` in `create`. -/
  next : Pid → Option Icache.Slot
  bio : Bio.State
  /-- `iget: no inodes`. -/
  panicked : Bool

def rootSlot : Icache.Slot := ⟨0, ninode_pos⟩

/-- After `userinit`: the first process has the root directory as its working directory. -/
def init (disk : Bio.Key → Block) : State where
  inode i :=
    if i = rootSlot then ⟨ROOTDEV, ROOTINO, 1, none, false, Fs.Dinode.zero, (0, 0)⟩
    else ⟨0, 0, 0, none, false, Fs.Dinode.zero, (0, 0)⟩
  ref _ := 0
  ip _ := none
  ofile _ := none
  used p := p = Ptable.initproc
  cwd p := if p = Ptable.initproc then some rootSlot else none
  cur _ := none
  next _ := none
  bio := .boot disk
  panicked := false

namespace State

variable (s : State) (p : Pid)

def panic : State := { s with panicked := true }

def setCur (x : Option Icache.Slot) : State := { s with cur := update s.cur p x }

def setNext (x : Option Icache.Slot) : State := { s with next := update s.next p x }

/-- `iput`, with its count; what it does to the inode on disk takes no entry of a table. -/
def iput (i : Icache.Slot) : State := { s with inode := Icache.decref s.inode i }

/-! ## Paths -/

def namex (absolute : Bool) : Option State :=
  if s.used p ∧ s.cur p = none then
    if absolute then
      match Icache.iget s.inode ROOTDEV ROOTINO with
      | some (i, inode) => some ({ s with inode := inode }.setCur p (some i))
      | none => some s.panic
    else (s.cwd p).map fun i => { s with inode := Icache.idup s.inode i }.setCur p (some i)
  else none

/-- `dirlookup` finds an entry for `inum`, or `create` gets it from `ialloc`. -/
def dirlookup (inum : Nat) : Option State :=
  match s.cur p, s.next p with
  | some i, none =>
    match Icache.iget s.inode (s.inode i).dev inum with
    | some (j, inode) => some ({ s with inode := inode }.setNext p (some j))
    | none => some s.panic
  | _, _ => none

def iunlockput : Option State :=
  match s.cur p, s.next p with
  | some i, some j => some (((s.iput i).setCur p (some j)).setNext p none)
  | _, _ => none

def fail : Option State :=
  match s.cur p, s.next p with
  | some i, none => some ((s.iput i).setCur p none)
  | _, _ => none

/-! ## System calls -/

/-- The rest of `sys_open`, with `filealloc` and `fdalloc`. -/
def sysOpen : Option State :=
  match s.cur p, s.next p with
  | some i, none =>
    match (List.finRange NFILE).find? (fun f => s.ref f = 0), (List.finRange NOFILE).find? (fun fd => s.ofile (p, fd) = none) with
    | some f, some fd =>
      some ({ s with
        ref := update s.ref f 1
        ip := update s.ip f (some i)
        ofile := update s.ofile (p, fd) (some f) }.setCur p none)
    | _, _ => s.fail p
  | _, _ => none

def sysChdir : Option State :=
  match s.cur p, s.next p, s.cwd p with
  | some i, none, some j => some ({ s.iput j with cwd := update s.cwd p (some i) }.setCur p none)
  | _, _, _ => none

def forkFd (np : Pid) (fd : Fd) : State :=
  match s.ofile (p, fd) with
  | some f =>
    { s with
      ref := update s.ref f (s.ref f + 1)
      ofile := update s.ofile (np, fd) (some f) }
  | none => s

def fork : Option State :=
  match s.cur p, s.cwd p, (List.finRange NPROC).find? (fun q => s.used q = false) with
  | none, some i, some np =>
    let s := (List.finRange NOFILE).foldl (fun s fd => s.forkFd p np fd) s
    some { s with
      used := update s.used np true
      inode := Icache.idup s.inode i
      cwd := update s.cwd np (some i) }
  | _, _, _ => none

end State

def actor (s : Bio.State) : Bio.Act → Option Nat
  | .bget _ pid _ _ => some pid
  | .acquiresleep c | .bread c | .iderw c | .modify c _ | .logWrite c | .bwrite c | .releasesleep c | .brelse c =>
    (s.refs.lookup c).map (·.pid)

inductive Act where
  | namex (p : Pid) (absolute : Bool)
  | dirlookup (p : Pid) (inum : Nat)
  | iunlockput (p : Pid)
  | fail (p : Pid)
  | open (p : Pid)
  | chdir (p : Pid)
  | fork (p : Pid)
  | bio (p : Pid) (a : Bio.Act)

def step (s : State) (a : Act) : Option State :=
  if s.panicked = false ∧ s.bio.panicked = none then
    match a with
    | .namex p absolute => s.namex p absolute
    | .dirlookup p inum => s.dirlookup p inum
    | .iunlockput p => s.iunlockput p
    | .fail p => s.fail p
    | .open p => s.sysOpen p
    | .chdir p => s.sysChdir p
    | .fork p => s.fork p
    | .bio p a => if s.used p ∧ actor s.bio a = some p.val then (Bio.step s.bio a).map fun b => { s with bio := b } else none
  else none

end Xv6.Limits
