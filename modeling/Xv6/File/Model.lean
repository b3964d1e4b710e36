import Xv6.Proc.Model

/-!
# Open files (`file.c`, `pipe.c`, `sysfile.c`)

The file table and the descriptors of all processes, with the calls that create, copy and drop references to a
`struct file`. Whether a path is found, and whether memory is left, is up to the environment. Pipe pages and the inode
references that `open` takes are numbered in the order in which they are handed out.
-/

namespace Xv6.Ftable

open Function

open Xv6.Ptable (Slot)

def NFILE : Nat := 100

def NOFILE : Nat := 16

def O_RDONLY : BitVec 32 := 0x000#32

def O_WRONLY : BitVec 32 := 0x001#32

def O_RDWR : BitVec 32 := 0x002#32

def O_CREATE : BitVec 32 := 0x200#32

abbrev FileIx := Fin NFILE

abbrev Fd := Fin NOFILE

inductive FileType where
  | FD_NONE
  | FD_PIPE
  | FD_INODE
deriving DecidableEq

structure File where
  type : FileType
  ref : Nat
  readable : Bool
  writable : Bool
  pipe : Nat
  ip : Nat
deriving DecidableEq

structure Pipe where
  readopen : Bool
  writeopen : Bool
deriving DecidableEq

def Pipe.close (pi : Pipe) (writable : Bool) : Pipe :=
  if writable then { pi with writeopen := false } else { pi with readopen := false }

/-- What becomes of an entry of the process table. -/
inductive Life where
  | unused
  | used
  | zombie
deriving DecidableEq

structure State where
  file : FileIx → File
  /-- `ptable.proc[p].ofile[fd]`. -/
  ofile : Slot × Fd → Option FileIx
  life : Slot → Life
  pipe : Nat → Pipe
  npipe : Nat
  /-- The pipe pages that were given to `kfree`. -/
  freed : List Nat
  nip : Nat
  iputs : List Nat

def init : State where
  file _ := ⟨.FD_NONE, 0, false, false, 0, 0⟩
  ofile _ := none
  life p := if p = Ptable.initproc then .used else .unused
  pipe _ := ⟨false, false⟩
  npipe := 0
  freed := []
  nip := 0
  iputs := []

inductive Panic where
  | filedup
  | fileclose
deriving DecidableEq

namespace State

variable (s : State) (f : FileIx) (p : Slot)

def setFile (x : File) : State := { s with file := update s.file f x }

def setFd (fd : Fd) (x : Option FileIx) : State := { s with ofile := update s.ofile (p, fd) x }

def iput (ip : Nat) : State := { s with iputs := ip :: s.iputs }

/-! ## `file.c` -/

def filealloc : Option (FileIx × State) :=
  match (List.finRange NFILE).find? fun f => (s.file f).ref = 0 with
  | some f => some (f, s.setFile f { s.file f with ref := 1 })
  | none => none

def filedup : Except Panic State :=
  if (s.file f).ref < 1 then .error .filedup else .ok (s.setFile f { s.file f with ref := (s.file f).ref + 1 })

def pipeclose (k : Nat) (writable : Bool) : State :=
  let pi := (s.pipe k).close writable
  let s := { s with pipe := update s.pipe k pi }
  if pi.readopen = false ∧ pi.writeopen = false then { s with freed := k :: s.freed } else s

def closed (ff : File) : State :=
  match ff.type with
  | .FD_PIPE => s.pipeclose ff.pipe ff.writable
  | .FD_INODE => s.iput ff.ip
  | .FD_NONE => s

def fileclose : Except Panic State :=
  let ff := s.file f
  if ff.ref < 1 then .error .fileclose
  else if 0 < ff.ref - 1 then .ok (s.setFile f { ff with ref := ff.ref - 1 })
  else .ok ((s.setFile f { ff with ref := 0, type := .FD_NONE }).closed ff)

/-! ## `pipe.c` -/

def pipeends (f0 f1 : FileIx) : State :=
  let k := s.npipe
  let s := { s with npipe := k + 1, pipe := update s.pipe k ⟨true, true⟩ }
  let s := s.setFile f0 { s.file f0 with type := .FD_PIPE, readable := true, writable := false, pipe := k }
  s.setFile f1 { s.file f1 with type := .FD_PIPE, readable := false, writable := true, pipe := k }

def pipealloc (mem : Bool) : Except Panic (Option (FileIx × FileIx) × State) :=
  match s.filealloc with
  | none => .ok (none, s)
  | some (f0, s) =>
    match s.filealloc with
    | none => do
      let s ← s.fileclose f0
      return (none, s)
    | some (f1, s) =>
      if mem then .ok (some (f0, f1), s.pipeends f0 f1)
      else do
        let s ← s.fileclose f0
        let s ← s.fileclose f1
        return (none, s)

/-! ## `sysfile.c` -/

def argfd (n : Int) : Option (Fd × FileIx) :=
  if h : 0 ≤ n ∧ n < NOFILE then
    let fd : Fd := ⟨n.toNat, by omega⟩
    (s.ofile (p, fd)).map (fd, ·)
  else none

def fdalloc : Option (Fd × State) :=
  match (List.finRange NOFILE).find? fun fd => s.ofile (p, fd) = none with
  | some fd => some (fd, s.setFd p fd (some f))
  | none => none

def sysDup (n : Int) : Except Panic (Int × State) :=
  match s.argfd p n with
  | none => .ok (-1, s)
  | some (_, f) =>
    match s.fdalloc f p with
    | none => .ok (-1, s)
    | some (fd, s) => do
      let s ← s.filedup f
      return (fd, s)

def sysClose (n : Int) : Except Panic (Int × State) :=
  match s.argfd p n with
  | none => .ok (-1, s)
  | some (fd, f) => do
    let s ← (s.setFd p fd none).fileclose f
    return (0, s)

/-- The path is found if `found` has a value, which says whether it is a directory. -/
def sysOpen (found : Option Bool) (omode : BitVec 32) : Except Panic (Int × State) :=
  match found with
  | none => .ok (-1, s)
  | some dir =>
    let ip := s.nip
    let s := { s with nip := ip + 1 }
    if omode &&& O_CREATE = 0 ∧ dir ∧ omode ≠ O_RDONLY then .ok (-1, s.iput ip)
    else
      match s.filealloc with
      | none => .ok (-1, s.iput ip)
      | some (f, s) =>
        match s.fdalloc f p with
        | none => do
          let s ← s.fileclose f
          return (-1, s.iput ip)
        | some (fd, s) =>
          .ok (fd, s.setFile f { s.file f with
            type := .FD_INODE
            ip := ip
            readable := omode &&& O_WRONLY = 0
            writable := omode &&& O_WRONLY ≠ 0 ∨ omode &&& O_RDWR ≠ 0 })

def sysPipe (ptr mem : Bool) : Except Panic (Int × State) :=
  if !ptr then .ok (-1, s)
  else do
    let r ← s.pipealloc mem
    match r with
    | (none, s) => return (-1, s)
    | (some (rf, wf), s) =>
      match s.fdalloc rf p with
      | none => do
        let s ← s.fileclose rf
        let s ← s.fileclose wf
        return (-1, s)
      | some (fd0, s0) =>
        match s0.fdalloc wf p with
        | none => do
          let s ← (s0.setFd p fd0 none).fileclose rf
          let s ← s.fileclose wf
          return (-1, s)
        | some (_, s1) => return (0, s1)

def pipeFds (mem : Bool) : Option (Fd × Fd) :=
  match s.pipealloc mem with
  | .ok (some (rf, wf), s) => do
    let (fd0, s) ← s.fdalloc rf p
    let (fd1, _) ← s.fdalloc wf p
    return (fd0, fd1)
  | _ => none

/-! ## `proc.c` -/

def forkFd (np : Slot) (fd : Fd) : Except Panic State :=
  match s.ofile (p, fd) with
  | some f => do
    let s ← s.filedup f
    return s.setFd np fd (some f)
  | none => .ok s

/-- `allocproc` or `copyuvm` has no memory unless `mem`. The child's slot stands for its pid. -/
def fork (mem : Bool) : Except Panic (Int × State) :=
  match (List.finRange Ptable.NPROC).find? fun q => s.life q = .unused with
  | none => .ok (-1, s)
  | some np =>
    if mem then do
      let s := { s with life := update s.life np .used }
      let s ← (List.finRange NOFILE).foldlM (fun s fd => s.forkFd p np fd) s
      return (np, s)
    else .ok (-1, s)

def exitFd (fd : Fd) : Except Panic State :=
  match s.ofile (p, fd) with
  | some f => do
    let s ← s.fileclose f
    return s.setFd p fd none
  | none => .ok s

def exit : Except Panic (Int × State) := do
  let s ← (List.finRange NOFILE).foldlM (fun s fd => s.exitFd p fd) s
  return (0, { s with life := update s.life p .zombie })

def wait (q : Slot) : Except Panic (Int × State) :=
  if s.life q = .zombie then .ok (q, { s with life := update s.life q .unused }) else .ok (-1, s)

end State

inductive Call where
  | dup (fd : Int)
  | close (fd : Int)
  | open (found : Option Bool) (omode : BitVec 32)
  | pipe (ptr mem : Bool)
  | fork (mem : Bool)
  | exit
  | wait (q : Slot)

def exec (s : State) (p : Slot) : Call → Except Panic (Int × State)
  | .dup fd => s.sysDup p fd
  | .close fd => s.sysClose p fd
  | .open found omode => s.sysOpen p found omode
  | .pipe ptr mem => s.sysPipe p ptr mem
  | .fork mem => s.fork p mem
  | .exit => s.exit p
  | .wait q => s.wait q

def step (s : State) (a : Slot × Call) : Option State :=
  if s.life a.1 = .used then
    match exec s a.1 a.2 with
    | .ok r => some r.2
    | .error _ => none
  else none

end Xv6.Ftable
